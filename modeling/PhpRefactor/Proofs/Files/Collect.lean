import PhpRefactor.Proofs.Files.Names
import PhpRefactor.Proofs.Files.Outputs

/-!
# The files that directories stand for

Directories stand for the tree documents in them and below them, in the order of their names
(`Batch.documents`); what is collected is just that (`Batch.run_collect`).  It depends on where
there are tree documents and directories and on nothing else.  New directories without tree
documents and new files with other names make no difference, and neither does what any file holds
(`Batch.documents_congr`).
-/

set_option autoImplicit false

namespace PhpRefactor

open FileTree (Keeps placeStep start)

/-! ## Paths to directories -/

namespace FileTree

variable {root before after : FileTree} {path x : String} {home p : List String}
  {entries : List (String × FileTree)}

/-- The path leads to a directory in this place. -/
structure DirAt (root : FileTree) (home : List String) (path : String) (p : List String) :
    Prop where
  walk : root.walk home path = .ok p
  dir : root.HasDir p

theorem isDirAt_iff_of_walk (h : root.walk home path = .ok p) :
    root.isDirAt home path = true ↔ root.HasDir p := by
  have hfind : root.isDirAt home path = true ↔
      ∃ entries, root.find home path = .ok (dir entries) := by
    rw [isDirAt]
    rcases root.find home path with _ | ⟨_ | _⟩ <;> simp [isDir]
  rw [hfind]
  refine exists_congr fun entries => ?_
  rw [find_eq_ok_iff]
  constructor
  · rintro ⟨q, hq, hget⟩
    rwa [Except.ok.inj (hq.symm.trans h)] at hget
  · exact fun hget => ⟨p, h, hget⟩

theorem exists_dirAt (h : root.isDirAt home path = true) : ∃ p, root.DirAt home path p := by
  have hfound := h
  rw [isDirAt] at hfound
  split at hfound
  · rename_i t ht
    obtain ⟨p, hwalk, -⟩ := find_eq_ok_iff.mp ht
    exact ⟨p, hwalk, (isDirAt_iff_of_walk hwalk).mp h⟩
  · cases hfound

/-- A path that can be walked leads where its route leads. -/
theorem place_of_walk (h : root.walk home path = .ok p) :
    (Path.route path).foldl placeStep (start home path) = p := by
  have hplace := (of_walk_eq_ok h).1
  rw [place?_eq] at hplace
  split at hplace
  · cases hplace
  · exact Option.some.inj hplace

namespace DirAt

theorem isDirAt (h : root.DirAt home path p) : root.isDirAt home path = true :=
  (isDirAt_iff_of_walk h.walk).mpr h.dir

/-- There are directories all the way. -/
theorem passed (h : root.DirAt home path p) : ∀ r ∈ passed home path, root.HasDir r := by
  intro r hr
  have hwalk := h.walk
  rw [FileTree.walk] at hwalk
  split at hwalk
  · cases hwalk
  · exact (hasDir_of_foldlM_eq_ok hwalk ((mem_passedFrom_parts _ _).mpr hr)).elim
      (fun heq => heq ▸ h.dir) id

theorem walk_join (h : root.DirAt home path p) (hx : Path.Plain x) :
    root.walk home (Path.join path x) = .ok (p ++ [x]) := by
  rw [FileTree.walk_join hx h.passed, place_of_walk h.walk]

theorem listAt (h : root.DirAt home path p) (hget : root.get? p = some (.dir entries)) :
    root.listAt home path = .ok (Path.inOrder (entries.map Prod.fst)) := by
  rw [FileTree.listAt, find_eq_ok_iff.mpr ⟨p, h.walk, hget⟩]
  rfl

theorem keeps {spared : List String → Prop} (hkeeps : Keeps spared before after)
    (h : before.DirAt home path p) : after.DirAt home path p :=
  ⟨hkeeps.walk h.walk, hkeeps.dir p h.dir⟩

end DirAt

/-- Under a name of a directory there is a directory or a file. -/
theorem exists_file_of_mem (hget : root.get? p = some (.dir entries))
    (hx : x ∈ entries.map Prod.fst) (hdir : ¬ root.HasDir (p ++ [x])) :
    ∃ contents, root.get? (p ++ [x]) = some (.file contents) := by
  have hlook := (mem_names_iff hget).mp hx
  cases hitem : root.get? (p ++ [x]) with
  | none => exact absurd (look_eq_none_iff.mpr hitem) hlook
  | some t =>
    cases t with
    | file contents => exact ⟨contents, rfl⟩
    | dir below => exact absurd ⟨below, hitem⟩ hdir

end FileTree

namespace Batch

open BatchError (run_call run_bind)

variable {root before after : FileTree} {home dirs : List String} {path x : String}
  {p : List String} {depth : Nat}

/-! ## Tree documents by their names -/

theorem isTreeFile_congr {a b : String} (h : Path.fileName? a = Path.fileName? b) :
    isTreeFile a = isTreeFile b := by
  unfold isTreeFile Path.extension?
  rw [h]

theorem fileName?_join (hx : Path.Plain x) (path : String) :
    Path.fileName? (Path.join path x) = some x := by
  rw [Path.fileName?, Path.components_join hx, List.getLast?_concat]

/-- Whether a path is that of a tree document is seen by the name at its end. -/
theorem isTreeFile_join (hx : Path.Plain x) (path : String) :
    isTreeFile (Path.join path x) = isTreeFile x := by
  have hself : Path.join "" x = x := by
    have hhead : x.toList.head? ≠ some '/' := fun hhead =>
      hx.no_slash (List.mem_of_mem_head? hhead)
    simp [Path.join, hhead]
  have hname := fileName?_join hx ""
  rw [hself] at hname
  exact isTreeFile_congr ((fileName?_join hx path).trans hname.symm)

/-- The place has the name of a tree document. -/
def DocumentPlace (p : List String) : Prop := ∃ above x, p = above ++ [x] ∧ isTreeFile x = true

/-- A file that stands where no named directory does is taken for its name or not at all. -/
theorem isWanted_eq (hdirs : ∀ d ∈ dirs, root.isDirAt home d = true)
    (hwalk : root.walk home path = .ok p) (hfile : ¬ root.HasDir p) :
    isWanted dirs path = isTreeFile path := by
  have hnone : dirs.any (Path.same · path) = false := by
    rw [List.any_eq_false]
    intro d hd hsame
    obtain ⟨q, h⟩ := FileTree.exists_dirAt (hdirs d hd)
    obtain ⟨hrooted, hroute⟩ := Path.eq_of_same hsame
    have hplace := FileTree.place_of_walk h.walk
    rw [start, hrooted, hroute, ← start, FileTree.place_of_walk hwalk] at hplace
    exact hfile (hplace ▸ h.dir)
  rw [isWanted, hnone, Bool.or_false]

/-! ## What is collected -/

/-- What a path stands for, given what directories stand for. -/
def standsFor (root : FileTree) (home : List String) (below : String → List String)
    (path : String) : List String :=
  if root.isDirAt home path then below path else if isTreeFile path then [path] else []

/-- The tree documents in a directory and below it, at most so deep. -/
def documents (root : FileTree) (home : List String) : Nat → String → List String
  | 0, _ => []
  | depth + 1, path =>
    ((root.listAt home path).toOption.getD []).flatMap fun x =>
      standsFor root home (documents root home depth) (Path.join path x)

theorem standsFor_of_hasDir {below : String → List String} (hwalk : root.walk home path = .ok p)
    (hdir : root.HasDir p) : standsFor root home below path = below path :=
  if_pos ((FileTree.isDirAt_iff_of_walk hwalk).mpr hdir)

theorem standsFor_of_not_hasDir {below : String → List String} (hwalk : root.walk home path = .ok p)
    (hdir : ¬ root.HasDir p) :
    standsFor root home below path = if isTreeFile path then [path] else [] :=
  if_neg fun h => hdir ((FileTree.isDirAt_iff_of_walk hwalk).mp h)

theorem documents_succ {entries : List (String × FileTree)} (h : root.DirAt home path p)
    (hget : root.get? p = some (.dir entries)) (depth : Nat) :
    documents root home (depth + 1) path =
      (Path.inOrder (entries.map Prod.fst)).flatMap fun x =>
        standsFor root home (documents root home depth) (Path.join path x) := by
  rw [documents, h.listAt hget]
  rfl

/-- Several paths stand for what each of them stands for. -/
theorem run_expandAll {f : String → List String} {paths : List String}
    (h : ∀ path ∈ paths,
      (expand (m := FileM home) dirs depth path).run root = (.ok (f path), root)) :
    (expandAll (m := FileM home) dirs depth paths).run root =
      (.ok (paths.flatMap f), root) := by
  induction paths with
  | nil =>
    rw [expandAll]
    rfl
  | cons path paths ih =>
    rw [expandAll, run_bind, h path List.mem_cons_self]
    dsimp only
    rw [run_bind, ih fun other hother => h other (List.mem_cons_of_mem _ hother)]
    rfl

/-- A directory stands for the documents in it and below it. -/
theorem run_expand (hroot : root.WellNamed) (hdirs : ∀ d ∈ dirs, root.isDirAt home d = true)
    (h : root.DirAt home path p) (depth : Nat) :
    (expand (m := FileM home) dirs depth path).run root =
      (.ok (documents root home depth path), root) := by
  induction depth generalizing path p with
  | zero =>
    have hcall : (MonadFiles.isDir path : FileM home Bool) root = (true, root) := by
      rw [← h.isDirAt]
      rfl
    rw [expand, run_call, hcall]
    rfl
  | succ depth ih =>
    obtain ⟨entries, hget⟩ := h.dir
    have hcall : (MonadFiles.isDir path : FileM home Bool) root = (true, root) := by
      rw [← h.isDirAt]
      rfl
    have hlist : (MonadFiles.listDir path : FileM home _) root =
        (.ok (Path.inOrder (entries.map Prod.fst)), root) := by
      rw [← h.listAt hget]
      rfl
    have hnames := hroot.get? hget
    have hentries : ∀ other ∈ (Path.inOrder (entries.map Prod.fst)).map (Path.join path),
        (expand (m := FileM home) dirs depth other).run root =
          (.ok (standsFor root home (documents root home depth) other), root) := by
      intro other hother
      obtain ⟨x, hx, rfl⟩ := List.mem_map.mp hother
      have hplain := hnames.plain ((Path.perm_inOrder _).mem_iff.mp hx)
      have hwalk := h.walk_join hplain
      by_cases hdir : root.HasDir (p ++ [x])
      · rw [standsFor_of_hasDir hwalk hdir]
        exact ih ⟨hwalk, hdir⟩
      · have hnot : root.isDirAt home (Path.join path x) = false := by
          rw [Bool.eq_false_iff, ne_eq, FileTree.isDirAt_iff_of_walk hwalk]
          exact hdir
        have hother : (MonadFiles.isDir (Path.join path x) : FileM home Bool) root =
            (false, root) := by
          rw [← hnot]
          rfl
        rw [standsFor_of_not_hasDir hwalk hdir, expand.eq_def, run_call, hother,
          isWanted_eq hdirs hwalk hdir]
        rfl
    rw [expand, run_call, hcall]
    dsimp only
    rw [if_pos rfl, run_call, hlist]
    dsimp only
    rw [documents_succ h hget, run_expandAll hentries, List.flatMap_map]

/-- Directories are collected as the documents in them and below them. -/
theorem run_collect (hroot : root.WellNamed) (hdirs : ∀ d ∈ dirs, root.isDirAt home d = true)
    (depth : Nat) :
    (collect (m := FileM home) depth dirs).run root =
      (.ok (dirs.flatMap (documents root home depth)), root) := by
  refine run_expandAll fun d hd => ?_
  obtain ⟨p, h⟩ := FileTree.exists_dirAt (hdirs d hd)
  exact run_expand hroot hdirs h depth

/-- What is collected has the path of a tree document, and a file stands there. -/
theorem of_mem_documents (hroot : root.WellNamed) (h : root.DirAt home path p) {source : String}
    (hsource : source ∈ documents root home depth path) :
    isTreeFile source = true ∧ ∃ q contents, root.walk home source = .ok q ∧ DocumentPlace q ∧
      root.get? q = some (.file contents) := by
  induction depth generalizing path p with
  | zero => cases hsource
  | succ depth ih =>
    obtain ⟨entries, hget⟩ := h.dir
    rw [documents_succ h hget, List.mem_flatMap] at hsource
    obtain ⟨x, hx, hsource⟩ := hsource
    have hmem := (Path.perm_inOrder _).mem_iff.mp hx
    have hplain := (hroot.get? hget).plain hmem
    have hwalk := h.walk_join hplain
    by_cases hdir : root.HasDir (p ++ [x])
    · rw [standsFor_of_hasDir hwalk hdir] at hsource
      exact ih ⟨hwalk, hdir⟩ hsource
    · rw [standsFor_of_not_hasDir hwalk hdir] at hsource
      split at hsource
      · rename_i htree
        obtain rfl := List.mem_singleton.mp hsource
        obtain ⟨contents, hfile⟩ := FileTree.exists_file_of_mem hget hmem hdir
        rw [isTreeFile_join hplain] at htree
        exact ⟨by rw [isTreeFile_join hplain]; exact htree, _, contents, hwalk,
          ⟨p, x, rfl, htree⟩, hfile⟩
      · cases hsource

/-! ## What makes no difference -/

/-- A directory that was not there before stands for nothing, if all documents were. -/
theorem documents_of_new (hafter : after.WellNamed) (hkeeps : Keeps DocumentPlace before after)
    (h : after.DirAt home path p) (hnew : ¬ before.HasDir p) :
    documents after home depth path = [] := by
  induction depth generalizing path p with
  | zero => rfl
  | succ depth ih =>
    obtain ⟨entries, hget⟩ := h.dir
    rw [documents_succ h hget, List.flatMap_eq_nil_iff]
    intro x hx
    have hmem := (Path.perm_inOrder _).mem_iff.mp hx
    have hplain := (hafter.get? hget).plain hmem
    have hwalk := h.walk_join hplain
    by_cases hdir : after.HasDir (p ++ [x])
    · rw [standsFor_of_hasDir hwalk hdir]
      exact ih ⟨hwalk, hdir⟩ fun hold => hnew hold.of_append
    · rw [standsFor_of_not_hasDir hwalk hdir, isTreeFile_join hplain, if_neg]
      intro htree
      obtain ⟨contents, hfile⟩ := FileTree.exists_file_of_mem hget hmem hdir
      have hold := (hkeeps.file _ ⟨p, x, rfl, htree⟩ contents).mp hfile
      have hnone := FileTree.look_eq_none_iff.mp (FileTree.look_below hnew x [])
      cases hold.symm.trans hnone

/-- Where directories stand for the same as before, so does a name: it is there as it was, or it
stands for nothing before and after. -/
theorem standsFor_join_cases (hafter : after.WellNamed) (hkeeps : Keeps DocumentPlace before after)
    {entries entries' : List (String × FileTree)} (h : before.DirAt home path p)
    (hget : before.get? p = some (.dir entries)) (hget' : after.get? p = some (.dir entries'))
    (hplain : Path.Plain x) (hbelow : ∀ path p, before.DirAt home path p →
      documents after home depth path = documents before home depth path) :
    (x ∈ entries.map Prod.fst ∧ x ∈ entries'.map Prod.fst ∧
        standsFor after home (documents after home depth) (Path.join path x) =
          standsFor before home (documents before home depth) (Path.join path x)) ∨
      (x ∈ entries.map Prod.fst →
        standsFor before home (documents before home depth) (Path.join path x) = []) ∧
      (x ∈ entries'.map Prod.fst →
        standsFor after home (documents after home depth) (Path.join path x) = []) := by
  have hwalk := h.walk_join hplain
  have hwalk' := (h.keeps hkeeps).walk_join hplain
  by_cases hdir : before.HasDir (p ++ [x])
  · have hdir' := hkeeps.dir _ hdir
    refine .inl ⟨(FileTree.mem_names_iff hget).mpr ?_, (FileTree.mem_names_iff hget').mpr ?_, ?_⟩
    · simp [FileTree.hasDir_iff.mp hdir]
    · simp [FileTree.hasDir_iff.mp hdir']
    · rw [standsFor_of_hasDir hwalk hdir, standsFor_of_hasDir hwalk' hdir',
        hbelow _ _ ⟨hwalk, hdir⟩]
  rw [standsFor_of_not_hasDir hwalk hdir, isTreeFile_join hplain]
  by_cases htree : isTreeFile x = true
  · by_cases hold : ∃ contents, before.get? (p ++ [x]) = some (.file contents)
    · -- The document is still there.
      obtain ⟨contents, hfile⟩ := hold
      have hfile' := (hkeeps.file _ ⟨p, x, rfl, htree⟩ contents).mpr hfile
      have hdir' : ¬ after.HasDir (p ++ [x]) := by
        rintro ⟨below, hbelow⟩
        cases hbelow.symm.trans hfile'
      refine .inl ⟨(FileTree.mem_names_iff hget).mpr ?_, (FileTree.mem_names_iff hget').mpr ?_, ?_⟩
      · simp [FileTree.look_eq_none_iff, hfile]
      · simp [FileTree.look_eq_none_iff, hfile']
      · rw [standsFor_of_not_hasDir hwalk' hdir', isTreeFile_join hplain]
    · refine .inr ⟨fun hx => absurd (FileTree.exists_file_of_mem hget hx hdir) hold, fun hx => ?_⟩
      by_cases hdir' : after.HasDir (p ++ [x])
      · rw [standsFor_of_hasDir hwalk' hdir']
        exact documents_of_new hafter hkeeps ⟨hwalk', hdir'⟩ hdir
      · obtain ⟨contents, hfile'⟩ := FileTree.exists_file_of_mem hget' hx hdir'
        exact absurd ⟨contents, (hkeeps.file _ ⟨p, x, rfl, htree⟩ contents).mp hfile'⟩ hold
  · refine .inr ⟨fun _ => if_neg htree, fun _ => ?_⟩
    by_cases hdir' : after.HasDir (p ++ [x])
    · rw [standsFor_of_hasDir hwalk' hdir']
      exact documents_of_new hafter hkeeps ⟨hwalk', hdir'⟩ hdir
    · rw [standsFor_of_not_hasDir hwalk' hdir', isTreeFile_join hplain, if_neg htree]

/-- Where documents and directories stay and no documents are new, a directory stands for what it
stood for. -/
theorem documents_congr (hbefore : before.WellNamed) (hafter : after.WellNamed)
    (hkeeps : Keeps DocumentPlace before after) (h : before.DirAt home path p) (depth : Nat) :
    documents after home depth path = documents before home depth path := by
  induction depth generalizing path p with
  | zero => rfl
  | succ depth ih =>
    have h' := h.keeps hkeeps
    obtain ⟨entries, hget⟩ := h.dir
    obtain ⟨entries', hget'⟩ := h'.dir
    have hnames := hbefore.get? hget
    have hnames' := hafter.get? hget'
    have hcases := fun x hplain =>
      standsFor_join_cases (x := x) hafter hkeeps h hget hget' hplain fun _ _ h => ih h
    rw [documents_succ h hget, documents_succ h' hget']
    refine Path.flatMap_inOrder_congr hnames'.nodup hnames.nodup (fun x hx hne => ?_)
      fun x hx hne => ?_
    · obtain ⟨hold, -, hsame⟩ := (hcases x (hnames'.plain hx)).resolve_right
        fun hnone => hne (hnone.2 hx)
      exact ⟨hold, hsame.symm⟩
    · obtain ⟨-, hnew, hsame⟩ := (hcases x (hnames.plain hx)).resolve_right
        fun hnone => hne (hnone.1 hx)
      exact ⟨hnew, hsame⟩

/-- So the same files are collected. -/
theorem run_collect_congr (hbefore : before.WellNamed) (hafter : after.WellNamed)
    (hkeeps : Keeps DocumentPlace before after) (hdirs : ∀ d ∈ dirs, before.isDirAt home d = true)
    (depth : Nat) :
    (collect (m := FileM home) depth dirs).run after =
      (.ok (dirs.flatMap (documents before home depth)), after) := by
  have hdirs' : ∀ d ∈ dirs, after.isDirAt home d = true := fun d hd =>
    have ⟨_, h⟩ := FileTree.exists_dirAt (hdirs d hd)
    (h.keeps hkeeps).isDirAt
  have hsame : dirs.map (documents after home depth) = dirs.map (documents before home depth) := by
    refine List.map_congr_left fun d hd => ?_
    obtain ⟨p, h⟩ := FileTree.exists_dirAt (hdirs d hd)
    exact documents_congr hbefore hafter hkeeps h depth
  rw [run_collect hafter hdirs', List.flatMap_def, List.flatMap_def, hsame]

end Batch

end PhpRefactor
