import PhpRefactor.Proofs.Files.Collect
import Mathlib.Data.List.Forall2
import Mathlib.Data.List.Lex
import Mathlib.Data.List.Nodup

/-!
# The listing of a directory

Directories are gone into one after another, and each is listed for itself, in the order of the
names in it.  All the same the documents that a directory stands for come in one order, that of
their paths, component by component (`Path.Before`), and none is missing and none comes twice
(`FileTree.Lists`).  That holds as soon as directories may be gone into as deep as there are any.

A list of paths can also be worked off from its front, where a directory makes way for what is in it
(`Batch.WorksOff`).  This comes to the same documents, so it comes to an end.
-/

set_option autoImplicit false

namespace PhpRefactor

/-! ## The order of paths -/

namespace Component

/-- The place of a component in the order of their kinds. -/
def rank : Component → Nat
  | root => 0
  | here => 1
  | up => 2
  | name _ => 3

/-- A component comes before another for its kind, or it is the smaller one of two names. -/
inductive Before : Component → Component → Prop
  | kind {c d : Component} (h : c.rank < d.rank) : Before c d
  | name {x y : String} (h : x < y) : Before (.name x) (.name y)

theorem Before.irrefl (c : Component) : ¬ c.Before c := by
  intro h
  cases h with
  | kind h => exact Nat.lt_irrefl _ h
  | name h => exact String.lt_irrefl _ h

end Component

namespace Path

/-- A path comes before another, component by component. -/
def Before (a b : String) : Prop := List.Lex Component.Before (components a) (components b)

theorem Before.ne {a b : String} (h : Before a b) : a ≠ b := by
  rintro rfl
  exact List.lex_irrefl Component.Before.irrefl _ h

/-- Paths below one directory stand in the order of the names in it. -/
theorem before_of_lt {a b base x y : String} {cs ds : List Component}
    (ha : components a = components base ++ .name x :: cs)
    (hb : components b = components base ++ .name y :: ds) (h : x < y) : Before a b := by
  rw [Before, ha, hb]
  exact List.Lex.append_left _ (.rel (.name h)) _

/-- Names that are told apart stand in strict order. -/
theorem pairwise_lt_inOrder {xs : List String} (h : xs.Nodup) : (inOrder xs).Pairwise (· < ·) := by
  have hnodup : (inOrder xs).Nodup := (perm_inOrder xs).nodup_iff.mpr h
  refine (List.Pairwise.and (pairwise_inOrder xs) hnodup).imp fun {x y} hxy => ?_
  exact String.not_le.mp fun hle => hxy.2 (String.le_antisymm hxy.1 hle)

/-- The path that leads on from a directory by these names. -/
def below (base : String) (names : List String) : String := names.foldl join base

end Path

namespace FileTree

variable {root t : FileTree} {entries : List (String × FileTree)} {dir path x : String}
  {home p names : List String}

/-! ## How deep directories lie -/

theorem depth_le_depthOf (h : (x, t) ∈ entries) : t.depth ≤ depthOf entries := by
  induction entries with
  | nil => cases h
  | cons entry entries ih =>
    rw [depthOf]
    rcases List.mem_cons.mp h with rfl | h
    · exact Nat.le_max_left _ _
    · exact Nat.le_trans (ih h) (Nat.le_max_right _ _)

theorem depth_le_of_get? (h : root.get? p = some t) : t.depth ≤ root.depth := by
  induction p generalizing root with
  | nil => rw [Option.some.inj h]
  | cons x p ih =>
    cases root with
    | file contents => cases h
    | dir entries =>
      obtain ⟨u, hu, hget⟩ := Option.bind_eq_some_iff.mp h
      have hle := depth_le_depthOf (mem_of_lookup hu)
      have hdepth := ih hget
      rw [depth]
      omega

/-- What lies in a directory is less deep. -/
theorem depth_lt_of_get? (hdir : root.get? p = some (.dir entries))
    (h : root.get? (p ++ [x]) = some t) : t.depth < (FileTree.dir entries).depth := by
  rw [get?_append, hdir, Option.bind_eq_bind, Option.bind_some] at h
  obtain ⟨u, hu, hget⟩ := Option.bind_eq_some_iff.mp h
  obtain rfl := Option.some.inj hget
  have hle := depth_le_depthOf (mem_of_lookup hu)
  rw [depth]
  omega

/-! ## Paths below a directory -/

/-- A path goes on from a directory to what stands below it. -/
theorem DirAt.walk_below (h : root.DirAt home path p) (hroot : root.WellNamed)
    (hget : root.get? (p ++ names) = some t) :
    root.walk home (Path.below path names) = .ok (p ++ names) := by
  induction names generalizing path p with
  | nil => rw [List.append_nil]; exact h.walk
  | cons x names ih =>
    have hx := hroot.plain_of_get? hget x (List.mem_append_right _ List.mem_cons_self)
    have hwalk := h.walk_join hx
    rw [List.append_cons] at hget ⊢
    rw [Path.below, List.foldl_cons]
    cases names with
    | nil => rw [List.append_nil]; exact hwalk
    | cons y names =>
      refine ih ⟨hwalk, ?_⟩ hget
      -- Something stands below it.
      by_contra hdir
      have hnone := look_below hdir y names
      rw [look_eq_none_iff, hget] at hnone
      cases hnone

/-- The documents below a directory, each once, in the order of their paths. -/
structure Lists (root : FileTree) (home : List String) (dir : String) (listing : List String) :
    Prop where
  /-- A path is listed if it leads from the directory to a file that is named as a document. -/
  mem_iff : ∀ source, source ∈ listing ↔ ∃ p names contents, root.walk home dir = .ok p ∧
    root.get? (p ++ names) = some (.file contents) ∧ source = Path.below dir names ∧
      Batch.isTreeFile source = true
  /-- The order is strict, so no path is listed twice. -/
  inOrder : listing.Pairwise Path.Before

/-- Neither of two directories is the other or lies in it. -/
def Beside (root : FileTree) (home : List String) (a b : String) : Prop :=
  ∀ p q, root.walk home a = .ok p → root.walk home b = .ok q → ¬ p <+: q ∧ ¬ q <+: p

end FileTree

namespace Batch

open FileTree (DirAt Lists)

variable {root t : FileTree} {home dirs pending found : List String} {dir path source : String}
  {p : List String} {depth : Nat}

/-! ## What is listed -/

/-- A directory that may be gone into all the way stands for every document below it. -/
theorem mem_documents_iff (hroot : root.WellNamed) (h : root.DirAt home path p)
    (hget : root.get? p = some t) (hdepth : t.depth ≤ depth) :
    source ∈ documents root home depth path ↔ ∃ names contents,
      root.get? (p ++ names) = some (.file contents) ∧ source = Path.below path names ∧
        isTreeFile source = true := by
  induction depth generalizing path p t with
  | zero =>
    obtain ⟨entries, hdir⟩ := h.dir
    obtain rfl := Option.some.inj (hget.symm.trans hdir)
    rw [FileTree.depth] at hdepth
    omega
  | succ depth ih =>
    obtain ⟨entries, hdir⟩ := h.dir
    obtain rfl := Option.some.inj (hget.symm.trans hdir)
    have hbelow : ∀ x ∈ entries.map Prod.fst,
        (source ∈ standsFor root home (documents root home depth) (Path.join path x) ↔
          ∃ names contents, root.get? (p ++ x :: names) = some (.file contents) ∧
            source = Path.below path (x :: names) ∧ isTreeFile source = true) := by
      intro x hx
      have hwalk := h.walk_join ((hroot.get? hdir).plain hx)
      by_cases hsub : root.HasDir (p ++ [x])
      · obtain ⟨below, hsubget⟩ := hsub
        have hless := FileTree.depth_lt_of_get? hdir hsubget
        rw [standsFor_of_hasDir hwalk ⟨below, hsubget⟩,
          ih ⟨hwalk, below, hsubget⟩ hsubget (by omega)]
        simp only [List.append_assoc, List.singleton_append]
        rfl
      · rw [standsFor_of_not_hasDir hwalk hsub]
        obtain ⟨contents, hfile⟩ := FileTree.exists_file_of_mem hdir hx hsub
        constructor
        · intro hmem
          split at hmem
          · rename_i htree
            obtain rfl := List.mem_singleton.mp hmem
            exact ⟨[], contents, hfile, rfl, htree⟩
          · cases hmem
        · rintro ⟨names, contents, hget, rfl, htree⟩
          cases names with
          | nil =>
            rw [Path.below, List.foldl_cons, List.foldl_nil] at htree ⊢
            rw [if_pos htree]
            exact List.mem_cons_self
          | cons y names =>
            have hnone := FileTree.look_below hsub y names
            rw [List.append_assoc, List.singleton_append, FileTree.look_eq_none_iff, hget] at hnone
            cases hnone
    rw [documents_succ h hdir, List.mem_flatMap]
    constructor
    · rintro ⟨x, hx, hmem⟩
      obtain ⟨names, contents, hfile, hsource⟩ :=
        (hbelow x ((Path.perm_inOrder _).mem_iff.mp hx)).mp hmem
      exact ⟨x :: names, contents, hfile, hsource⟩
    · rintro ⟨names, contents, hfile, hsource⟩
      cases names with
      | nil =>
        rw [List.append_nil, hdir] at hfile
        cases hfile
      | cons x names =>
        have hx : x ∈ entries.map Prod.fst := by
          rw [FileTree.mem_names_iff hdir, ne_eq, FileTree.look_eq_none_iff]
          intro hnone
          rw [List.append_cons, FileTree.get?_append, hnone] at hfile
          cases hfile
        exact ⟨x, (Path.perm_inOrder _).mem_iff.mpr hx,
          (hbelow x hx).mpr ⟨names, contents, hfile, hsource⟩⟩

/-- What a name in a directory stands for has the name in its path. -/
theorem components_of_mem_standsFor (hroot : root.WellNamed) (hwalk : root.walk home path = .ok p)
    (h : source ∈ standsFor root home (documents root home depth) path) :
    ∃ cs, Path.components source = Path.components path ++ cs := by
  induction depth generalizing path p with
  | zero =>
    rw [standsFor] at h
    split at h
    · cases h
    · split at h
      · exact ⟨[], by rw [List.mem_singleton.mp h, List.append_nil]⟩
      · cases h
  | succ depth ih =>
    rw [standsFor] at h
    split at h
    · rename_i hdir
      have hat : root.DirAt home path p := ⟨hwalk, (FileTree.isDirAt_iff_of_walk hwalk).mp hdir⟩
      obtain ⟨entries, hget⟩ := hat.dir
      rw [documents_succ hat hget, List.mem_flatMap] at h
      obtain ⟨x, hx, h⟩ := h
      have hplain := (hroot.get? hget).plain ((Path.perm_inOrder _).mem_iff.mp hx)
      obtain ⟨cs, hcs⟩ := ih (hat.walk_join hplain) h
      refine ⟨.name x :: cs, ?_⟩
      rw [hcs, Path.components_join hplain, List.append_assoc, List.singleton_append]
    · split at h
      · exact ⟨[], by rw [List.mem_singleton.mp h, List.append_nil]⟩
      · cases h

/-- The documents of a directory come in the order of their paths. -/
theorem pairwise_documents (hroot : root.WellNamed) (h : root.DirAt home path p) (depth : Nat) :
    (documents root home depth path).Pairwise Path.Before := by
  induction depth generalizing path p with
  | zero => exact .nil
  | succ depth ih =>
    obtain ⟨entries, hget⟩ := h.dir
    have hnames := hroot.get? hget
    have hplain : ∀ x ∈ Path.inOrder (entries.map Prod.fst), Path.Plain x :=
      fun x hx => hnames.plain ((Path.perm_inOrder _).mem_iff.mp hx)
    rw [documents_succ h hget, List.pairwise_flatMap]
    constructor
    · intro x hx
      have hwalk := h.walk_join (hplain x hx)
      by_cases hdir : root.HasDir (p ++ [x])
      · rw [standsFor_of_hasDir hwalk hdir]
        exact ih ⟨hwalk, hdir⟩
      · rw [standsFor_of_not_hasDir hwalk hdir]
        split
        · exact List.pairwise_singleton _ _
        · exact .nil
    · -- What two names stand for is told apart by the names.
      refine (Path.pairwise_lt_inOrder hnames.nodup).imp_of_mem ?_
      intro x y hx hy hlt a ha b hb
      obtain ⟨cs, hcs⟩ := components_of_mem_standsFor hroot (h.walk_join (hplain x hx)) ha
      obtain ⟨ds, hds⟩ := components_of_mem_standsFor hroot (h.walk_join (hplain y hy)) hb
      rw [Path.components_join (hplain x hx), List.append_assoc] at hcs
      rw [Path.components_join (hplain y hy), List.append_assoc] at hds
      exact Path.before_of_lt hcs hds hlt

theorem lists_documents (hroot : root.WellNamed) (hdir : root.isDirAt home dir = true)
    (hdepth : root.depth ≤ depth) : root.Lists home dir (documents root home depth dir) := by
  obtain ⟨p, h⟩ := FileTree.exists_dirAt hdir
  obtain ⟨entries, hget⟩ := h.dir
  have hbound := FileTree.depth_le_of_get? hget
  refine ⟨fun source => ?_, pairwise_documents hroot h depth⟩
  rw [mem_documents_iff hroot h hget (by omega)]
  constructor
  · rintro ⟨names, contents, hsource⟩
    exact ⟨p, names, contents, h.walk, hsource⟩
  · rintro ⟨q, names, contents, hwalk, hsource⟩
    obtain rfl := Except.ok.inj (h.walk.symm.trans hwalk)
    exact ⟨names, contents, hsource⟩

/-- What is listed for a directory leads to a place below it, and no two paths to the same. -/
theorem places_documents (hroot : root.WellNamed) (h : root.DirAt home path p)
    (hdepth : root.depth ≤ depth) :
    (∀ source ∈ documents root home depth path, ∃ q, root.walk home source = .ok (p ++ q)) ∧
      ((documents root home depth path).map (root.walk home)).Nodup := by
  have hlists := lists_documents hroot h.isDirAt hdepth
  have hplaces : ∀ source ∈ documents root home depth path, ∃ names,
      source = Path.below path names ∧ root.walk home source = .ok (p ++ names) := by
    intro source hsource
    obtain ⟨q, names, contents, hwalk, hfile, rfl, -⟩ := (hlists.mem_iff source).mp hsource
    obtain rfl := Except.ok.inj (h.walk.symm.trans hwalk)
    exact ⟨names, rfl, h.walk_below hroot hfile⟩
  refine ⟨fun source hsource => ?_, ?_⟩
  · obtain ⟨names, -, hwalk⟩ := hplaces source hsource
    exact ⟨names, hwalk⟩
  · rw [List.Nodup, List.pairwise_map]
    refine hlists.inOrder.imp_of_mem fun {a b} ha hb hab heq => hab.ne ?_
    obtain ⟨names, rfl, ha⟩ := hplaces a ha
    obtain ⟨others, rfl, hb⟩ := hplaces b hb
    rw [ha, hb] at heq
    rw [List.append_cancel_left (Except.ok.inj heq)]

/-- Directories of which none lies in another stand for different places. -/
theorem nodup_places (hroot : root.WellNamed) (hdirs : ∀ d ∈ dirs, root.isDirAt home d = true)
    (hbeside : dirs.Pairwise (root.Beside home)) (hdepth : root.depth ≤ depth) :
    ((dirs.flatMap (documents root home depth)).map (root.walk home)).Nodup := by
  rw [List.map_flatMap, List.nodup_flatMap]
  constructor
  · intro d hd
    obtain ⟨p, h⟩ := FileTree.exists_dirAt (hdirs d hd)
    exact (places_documents hroot h hdepth).2
  · refine hbeside.imp_of_mem fun {a b} ha hb hab => ?_
    obtain ⟨p, h⟩ := FileTree.exists_dirAt (hdirs a ha)
    obtain ⟨q, h'⟩ := FileTree.exists_dirAt (hdirs b hb)
    intro place hplace hplace'
    obtain ⟨s, hs, rfl⟩ := List.mem_map.mp hplace
    obtain ⟨s', hs', hsame⟩ := List.mem_map.mp hplace'
    obtain ⟨names, hwalk⟩ := (places_documents hroot h hdepth).1 s hs
    obtain ⟨others, hwalk'⟩ := (places_documents hroot h' hdepth).1 s' hs'
    rw [hwalk, hwalk'] at hsame
    have hprefix : q <+: p ++ names := ⟨others, Except.ok.inj hsame⟩
    obtain ⟨hpq, hqp⟩ := hab p q h.walk h'.walk
    rcases List.prefix_or_prefix_of_prefix (List.prefix_append p names) hprefix with hp | hq
    · exact hpq hp
    · exact hqp hq

/-! ## Working off a list of paths -/

/-- Paths are worked off from the front of a list: a directory makes way for what is in it, in the
order of the names, and a file is taken if it is wanted. -/
inductive WorksOff (root : FileTree) (home named : List String) : List String → List String → Prop
  | done : WorksOff root home named [] []
  | dir {path : String} {names pending found : List String} (hdir : root.isDirAt home path = true)
      (hnames : root.listAt home path = .ok names)
      (hrest : WorksOff root home named (names.map (Path.join path) ++ pending) found) :
      WorksOff root home named (path :: pending) found
  | file {path : String} {pending found : List String} (hfile : root.isDirAt home path = false)
      (hrest : WorksOff root home named pending found) :
      WorksOff root home named (path :: pending)
        ((if isWanted named path then [path] else []) ++ found)

/-- A directory at the front of a list is worked off as the documents that it stands for. -/
theorem worksOff_documents (hroot : root.WellNamed) (hdirs : ∀ d ∈ dirs, root.isDirAt home d = true)
    (h : root.DirAt home path p) (hget : root.get? p = some t) (hdepth : t.depth ≤ depth)
    (hrest : WorksOff root home dirs pending found) :
    WorksOff root home dirs (path :: pending) (documents root home depth path ++ found) := by
  induction depth generalizing path p t pending found with
  | zero =>
    obtain ⟨entries, hdir⟩ := h.dir
    obtain rfl := Option.some.inj (hget.symm.trans hdir)
    rw [FileTree.depth] at hdepth
    omega
  | succ depth ih =>
    obtain ⟨entries, hdir⟩ := h.dir
    obtain rfl := Option.some.inj (hget.symm.trans hdir)
    refine .dir h.isDirAt (h.listAt hdir) ?_
    rw [documents_succ h hdir]
    have hnames : ∀ x ∈ Path.inOrder (entries.map Prod.fst), x ∈ entries.map Prod.fst :=
      fun x hx => (Path.perm_inOrder _).mem_iff.mp hx
    generalize Path.inOrder (entries.map Prod.fst) = names at hnames
    induction names with
    | nil => exact hrest
    | cons x names ihnames =>
      have hlater := ihnames fun y hy => hnames y (List.mem_cons_of_mem _ hy)
      have hx := hnames x List.mem_cons_self
      have hwalk := h.walk_join ((hroot.get? hdir).plain hx)
      rw [List.map_cons, List.cons_append, List.flatMap_cons, List.append_assoc]
      by_cases hsub : root.HasDir (p ++ [x])
      · obtain ⟨below, hsubget⟩ := hsub
        have hless := FileTree.depth_lt_of_get? hdir hsubget
        rw [standsFor_of_hasDir hwalk ⟨below, hsubget⟩]
        exact ih ⟨hwalk, below, hsubget⟩ hsubget (by omega) hlater
      · have hfile : root.isDirAt home (Path.join path x) = false := by
          rw [Bool.eq_false_iff, ne_eq, FileTree.isDirAt_iff_of_walk hwalk]
          exact hsub
        rw [standsFor_of_not_hasDir hwalk hsub, ← isWanted_eq hdirs hwalk hsub]
        exact .file hfile hlater

theorem worksOff_flatMap (hroot : root.WellNamed) (hdirs : ∀ d ∈ dirs, root.isDirAt home d = true)
    (hdepth : root.depth ≤ depth) {pending : List String} (hpending : pending ⊆ dirs) :
    WorksOff root home dirs pending (pending.flatMap (documents root home depth)) := by
  induction pending with
  | nil => exact .done
  | cons d pending ih =>
    obtain ⟨hd, hpending⟩ := List.cons_subset.mp hpending
    obtain ⟨p, h⟩ := FileTree.exists_dirAt (hdirs d hd)
    obtain ⟨entries, hget⟩ := h.dir
    have hbound := FileTree.depth_le_of_get? hget
    rw [List.flatMap_cons]
    exact worksOff_documents hroot hdirs h hget (by omega) (ih hpending)

/-! ## Directories as they are collected -/

/-- Directories of which none lies in another are collected as one listing after another, each of
them complete and in strict order, and no place is met twice.  Working off the directories from the
front of a list comes to an end with the same paths. -/
theorem collect_lists (hroot : root.WellNamed) (hdirs : ∀ d ∈ dirs, root.isDirAt home d = true)
    (hbeside : dirs.Pairwise (root.Beside home)) (hdepth : root.depth ≤ depth) :
    ∃ listings : List (List String),
      (collect (m := FileM home) depth dirs).run root = (.ok listings.flatten, root) ∧
      List.Forall₂ (root.Lists home) dirs listings ∧ (listings.flatten.map (root.walk home)).Nodup ∧
      WorksOff root home dirs dirs listings.flatten := by
  refine ⟨dirs.map (documents root home depth), ?_, ?_, ?_, ?_⟩
  · rw [run_collect hroot hdirs, List.flatMap_def]
  · rw [List.forall₂_map_right_iff, List.forall₂_same]
    exact fun d hd => lists_documents hroot (hdirs d hd) hdepth
  · rw [← List.flatMap_def]
    exact nodup_places hroot hdirs hbeside hdepth
  · rw [← List.flatMap_def]
    exact worksOff_flatMap hroot hdirs hdepth fun _ hd => hd

/-- Documents and outputs, some of them in a directory whose name other names begin with. -/
def shelves : FileTree :=
  .dir [("w", .dir [
      ("a", .dir [("b.json", .file (.text "1")), ("a", .dir [("z.json", .file (.text "2"))]),
        ("b.rectified.json", .file (.text "3")), ("unrectified.json", .file (.text "4"))]),
      ("a.json", .file (.text "5")), ("a-b", .dir [("c.json", .file (.text "6"))]),
      ("notes.txt", .file (.text "7"))]),
    ("v", .dir [("q.json", .file (.text "8"))])]

theorem wellNamed_shelves : shelves.WellNamed := by
  have hfile : ∀ text, (FileTree.file (.text text)).WellNamed := fun text => .file _
  have hz := FileTree.WellNamed.dir [("z.json", .file (.text "2"))] (by decide) (by decide)
    (by simpa using hfile _)
  have hc := FileTree.WellNamed.dir [("c.json", .file (.text "6"))] (by decide) (by decide)
    (by simpa using hfile _)
  have hq := FileTree.WellNamed.dir [("q.json", .file (.text "8"))] (by decide) (by decide)
    (by simpa using hfile _)
  refine .dir _ (by decide) (by decide) ?_
  rw [List.forall_mem_cons, List.forall_mem_singleton]
  refine ⟨.dir _ (by decide) (by decide) ?_, hq⟩
  simp only [List.forall_mem_cons, List.not_mem_nil, false_implies, implies_true, and_true]
  refine ⟨.dir _ (by decide) (by decide) ?_, hfile _, hc, hfile _⟩
  simp only [List.forall_mem_cons, List.not_mem_nil, false_implies, implies_true, and_true]
  exact ⟨hfile _, hz, hfile _, hfile _⟩

theorem collect_lists_shelves :
    shelves.WellNamed ∧ (∀ d ∈ ["../w", "/v"], shelves.isDirAt ["v"] d = true) ∧
      ["../w", "/v"].Pairwise (shelves.Beside ["v"]) ∧ shelves.depth ≤ 4 ∧
      ∃ listings : List (List String),
        (collect (m := FileM ["v"]) 4 ["../w", "/v"]).run shelves =
          (.ok listings.flatten, shelves) ∧
        List.Forall₂ (shelves.Lists ["v"]) ["../w", "/v"] listings ∧
        (listings.flatten.map (shelves.walk ["v"])).Nodup ∧
        WorksOff shelves ["v"] ["../w", "/v"] ["../w", "/v"] listings.flatten ∧
        ∀ source ∈ ["../w/a/a/z.json", "../w/a-b/c.json", "../w/a.json"], ∃ listing ∈ listings,
          source ∈ listing := by
  have hdirs : ∀ d ∈ ["../w", "/v"], shelves.isDirAt ["v"] d = true := by decide +kernel
  have hw : shelves.walk ["v"] "../w" = .ok ["w"] := by decide +kernel
  have hv : shelves.walk ["v"] "/v" = .ok ["v"] := by decide +kernel
  have hbeside : ["../w", "/v"].Pairwise (shelves.Beside ["v"]) := by
    refine List.pairwise_pair.mpr fun p q hp hq => ?_
    obtain rfl := Except.ok.inj (hp.symm.trans hw)
    obtain rfl := Except.ok.inj (hq.symm.trans hv)
    decide
  have hdepth : shelves.depth ≤ 4 := by decide
  obtain ⟨listings, hrun, hlists, hnodup, hworks⟩ :=
    collect_lists wellNamed_shelves hdirs hbeside hdepth
  refine ⟨wellNamed_shelves, hdirs, hbeside, hdepth, listings, hrun, hlists, hnodup, hworks, ?_⟩
  obtain ⟨first, rest, hfirst, -, rfl⟩ := List.forall₂_cons_left_iff.mp hlists
  intro source hsource
  refine ⟨first, List.mem_cons_self, (hfirst.mem_iff source).mpr ?_⟩
  simp only [List.mem_cons, List.not_mem_nil, or_false] at hsource
  rcases hsource with rfl | rfl | rfl
  · exact ⟨["w"], ["a", "a", "z.json"], _, hw, rfl, by decide +kernel⟩
  · exact ⟨["w"], ["a-b", "c.json"], _, hw, rfl, by decide +kernel⟩
  · exact ⟨["w"], ["a.json"], _, hw, rfl, by decide +kernel⟩

end Batch

end PhpRefactor
