import PhpRefactor.Proofs.Files.Listing

/-!
# The files that are skipped

A directory stands for the documents in it, and outputs of earlier batches are not among them.  An
output is named for a stem, a dot and the extension of outputs (`Batch.NamedAsOutput`).  What is
looked for is the extension alone, so a document whose name ends in these letters without a dot in
front of them is passed over too (`Batch.Mistaken`).  These are the only documents that are passed
over and are no outputs (`Batch.mem_collect_iff`).
-/

set_option autoImplicit false

namespace PhpRefactor

namespace Path

variable {dir name : String} {names : List String}

theorem below_concat (dir : String) (names : List String) (name : String) :
    below dir (names ++ [name]) = join (below dir names) name := by
  rw [below, List.foldl_append]
  rfl

theorem fileName?_below (h : Plain name) (dir : String) (names : List String) :
    fileName? (below dir (names ++ [name])) = some name := by
  rw [below_concat]
  exact Batch.fileName?_join h _

end Path

namespace Batch

open FileTree (DirAt)

variable {root : FileTree} {dir name source : String} {home p names : List String} {depth : Nat}
  {contents : Contents}

/-- The name is that of an output that is a document: a stem, a dot, and the extension. -/
def NamedAsOutput (name : String) : Prop :=
  ∃ stem, name = stem ++ "." ++ OutputFormat.json.extension

/-- The name ends as that of an output does, but for the dot. -/
def Mistaken (name : String) : Prop := isOutputName name = true ∧ ¬ NamedAsOutput name

theorem isSuffixOf_toList_iff {ending name : String} :
    ending.toList.isSuffixOf name.toList = true ↔ ∃ front, name = front ++ ending := by
  rw [List.isSuffixOf_iff_suffix]
  constructor
  · rintro ⟨front, hfront⟩
    refine ⟨String.ofList front, String.toList_injective ?_⟩
    rw [String.toList_append, String.toList_ofList, hfront]
  · rintro ⟨front, rfl⟩
    exact ⟨front.toList, String.toList_append.symm⟩

theorem isOutputName_iff : isOutputName name = true ↔
    ∃ front, name = front ++ OutputFormat.json.extension := isSuffixOf_toList_iff

instance (name : String) : Decidable (NamedAsOutput name) :=
  decidable_of_iff (("." ++ OutputFormat.json.extension).toList.isSuffixOf name.toList = true) <| by
    simp only [isSuffixOf_toList_iff, NamedAsOutput, String.append_assoc]

instance (name : String) : Decidable (Mistaken name) :=
  inferInstanceAs (Decidable (isOutputName name = true ∧ ¬ NamedAsOutput name))

theorem NamedAsOutput.isOutputName (h : NamedAsOutput name) : isOutputName name = true := by
  obtain ⟨stem, hname⟩ := h
  exact isOutputName_iff.mpr ⟨stem ++ ".", hname⟩

/-- A name that ends as that of an output does is named as a document. -/
theorem splitAtDot_of_isOutputName (h : isOutputName name = true) :
    (Path.splitAtDot name).2 = some treeExtension := by
  obtain ⟨front, rfl⟩ := isOutputName_iff.mp h
  have hreversed : (front ++ OutputFormat.json.extension).toList.reverse =
      'n' :: 'o' :: 's' :: 'j' :: '.' :: 'd' ::
        ("rectifie".toList.reverse ++ front.toList.reverse) := by
    simp [OutputFormat.extension]
  unfold Path.splitAtDot
  rw [hreversed]
  rfl

/-- An output that is a document is named for the stem of its source. -/
theorem exists_fileName?_outputPath (batch : Batch) (hformat : batch.format = .json)
    (hname : Path.fileName? source = some name) :
    ∃ x, Path.fileName? (batch.outputPath source) = some x ∧ NamedAsOutput x := by
  have hstem : Path.fileStem? source = some (Path.splitAtDot name).1 := by
    rw [Path.fileStem?, hname, Option.map_some]
  have hslash : '/' ∉ (Path.splitAtDot name).1.toList := fun hmem =>
    (Path.plain_of_fileName? hname).no_slash (Path.mem_of_mem_stem hmem)
  refine ⟨_, batch.fileName?_outputPath hstem hslash, (Path.splitAtDot name).1, ?_⟩
  rw [outputName, hformat]

/-- Whether a file below a directory is a document is seen by its extension and the end of its
name. -/
theorem isTreeFile_below (h : Path.Plain name) (dir : String) (names : List String) :
    isTreeFile (Path.below dir (names ++ [name])) = true ↔
      Path.extension? (Path.below dir (names ++ [name])) = some treeExtension ∧
        isOutputName name = false := by
  rw [isTreeFile, Path.fileName?_below h]
  simp

/-- A file below a directory is listed if it is a document by its name. -/
theorem mem_listing_iff {listing : List String} (hlists : root.Lists home dir listing)
    (hroot : root.WellNamed) (hwalk : root.walk home dir = .ok p)
    (hfile : root.get? (p ++ (names ++ [name])) = some (.file contents)) :
    Path.below dir (names ++ [name]) ∈ listing ↔
      Path.extension? (Path.below dir (names ++ [name])) = some treeExtension ∧
        isOutputName name = false := by
  have hplain : Path.Plain name := hroot.plain_of_get? hfile name (by simp)
  rw [hlists.mem_iff, ← isTreeFile_below hplain]
  constructor
  · rintro ⟨_, _, _, _, _, _, htree⟩
    exact htree
  · exact fun htree => ⟨p, names ++ [name], contents, hwalk, hfile, rfl, htree⟩

/-- A directory stands for a file below it if the file is named as a document and not as an output,
unless the name is mistaken for that of an output: then the file is passed over although it is named
as a document.  Outputs that are documents are named as outputs. -/
theorem mem_collect_iff (hroot : root.WellNamed) (hdir : root.isDirAt home dir = true)
    (hdepth : root.depth ≤ depth) :
    ∃ sources, (collect (m := FileM home) depth [dir]).run root = (.ok sources, root) ∧
      (∀ p names name contents, root.walk home dir = .ok p →
        root.get? (p ++ (names ++ [name])) = some (.file contents) →
        let path := Path.below dir (names ++ [name])
        (¬ Mistaken name → (path ∈ sources ↔
          Path.extension? path = some treeExtension ∧ ¬ NamedAsOutput name)) ∧
        (Mistaken name → Path.extension? path = some treeExtension ∧ path ∉ sources)) ∧
      ∀ batch : Batch, batch.format = .json → ∀ source x, Path.fileName? source = some x →
        ∃ y, Path.fileName? (batch.outputPath source) = some y ∧ NamedAsOutput y := by
  have hdirs : ∀ d ∈ [dir], root.isDirAt home d = true := by simpa using hdir
  refine ⟨documents root home depth dir, ?_, ?_, ?_⟩
  · rw [run_collect hroot hdirs, List.flatMap_singleton]
  · intro p names name contents hwalk hfile path
    have hmem := mem_listing_iff (lists_documents hroot hdir hdepth) hroot hwalk hfile
    have hplain : Path.Plain name := hroot.plain_of_get? hfile name (by simp)
    have hextension : Path.extension? path = (Path.splitAtDot name).2 := by
      rw [Path.extension?, Path.fileName?_below hplain]
      rfl
    constructor
    · intro hname
      rw [hmem]
      refine and_congr_right fun _ => ?_
      rw [← Bool.not_eq_true]
      exact not_congr ⟨fun hout => not_not.mp fun hnot => hname ⟨hout, hnot⟩,
        NamedAsOutput.isOutputName⟩
    · rintro ⟨hout, -⟩
      refine ⟨hextension.trans (splitAtDot_of_isOutputName hout), fun hlisted => ?_⟩
      rw [(hmem.mp hlisted).2] at hout
      cases hout
  · exact fun batch hformat source x hname => batch.exists_fileName?_outputPath hformat hname

theorem mem_collect_iff_shelves :
    shelves.WellNamed ∧ shelves.isDirAt ["v"] "/w" = true ∧ shelves.depth ≤ 4 ∧
    ∃ sources, (collect (m := FileM ["v"]) 4 ["/w"]).run shelves = (.ok sources, shelves) ∧
      "/w/a/b.json" ∈ sources ∧ "/w/a/b.rectified.json" ∉ sources ∧ "/w/notes.txt" ∉ sources ∧
      Mistaken "unrectified.json" ∧ "/w/a/unrectified.json" ∉ sources := by
  have hdir : shelves.isDirAt ["v"] "/w" = true := by decide +kernel
  have hdepth : shelves.depth ≤ 4 := by decide
  obtain ⟨sources, hrun, hmem, -⟩ := mem_collect_iff wellNamed_shelves hdir hdepth
  have hw : shelves.walk ["v"] "/w" = .ok ["w"] := by decide +kernel
  refine ⟨wellNamed_shelves, hdir, hdepth, sources, hrun, ?_, ?_, ?_, by decide, ?_⟩
  · exact ((hmem ["w"] ["a"] "b.json" _ hw rfl).1 (by decide)).mpr ⟨by decide +kernel, by decide⟩
  · intro hsource
    exact absurd (((hmem ["w"] ["a"] "b.rectified.json" _ hw rfl).1 (by decide)).mp hsource).2
      (by decide)
  · intro hsource
    exact absurd (((hmem ["w"] [] "notes.txt" _ hw rfl).1 (by decide)).mp hsource).1
      (by decide +kernel)
  · exact ((hmem ["w"] ["a"] "unrectified.json" _ hw rfl).2 (by decide)).2

/-- A document that is no output is passed over, and the run goes well. -/
theorem collect_passes_over_undotted :
    let root : FileTree := .dir [("src", .dir [("unrectified.json", .file (.text nullText))])]
    root.isDirAt [] "src" = true ∧
      root.find [] "src/unrectified.json" = .ok (.file (.text nullText)) ∧
      Path.extension? "src/unrectified.json" = some treeExtension ∧
      ¬ NamedAsOutput "unrectified.json" ∧
      (collect (m := FileM []) 2 ["src"]).run root = (.ok [], root) := by
  intro root
  have hdirs : ∀ d ∈ ["src"], root.isDirAt [] d = true := by decide +kernel
  have hsrc : root.DirAt [] "src" ["src"] := ⟨by decide +kernel, _, rfl⟩
  have hroot : root.WellNamed := by
    have hsub := FileTree.WellNamed.dir [("unrectified.json", .file (.text nullText))] (by decide)
      (by decide) (by simpa using FileTree.WellNamed.file _)
    exact .dir _ (by decide) (by decide) (by simpa using hsub)
  have hinOrder : Path.inOrder ["unrectified.json"] = ["unrectified.json"] :=
    Path.inOrder_of_pairwise (List.pairwise_singleton _ _)
  have hlisted := documents_succ hsrc rfl 1
  rw [List.map_cons, List.map_nil, hinOrder] at hlisted
  refine ⟨by decide +kernel, rfl, by decide +kernel, by decide, ?_⟩
  rw [run_collect hroot hdirs, List.flatMap_singleton, hlisted]
  rfl

end Batch

end PhpRefactor
