import PhpRefactor.Proofs.Files.Directories

/-!
# Names in a file system

The names in a directory are told apart, and each of them is one part of a path
(`FileTree.WellNamed`).  Work on files keeps it so: a name comes into a file system only as a part
of a path.

Directories are listed in the order of the names.  Of two listings that order depends on nothing
but the names, so what is taken from the names one by one is the same if both yield the same names
with the same (`Path.flatMap_inOrder_congr`).
-/

set_option autoImplicit false

namespace PhpRefactor

/-! ## The order of names -/

namespace Path

variable {β : Type} {xs ys : List String}

theorem perm_inOrder (xs : List String) : (inOrder xs).Perm xs := List.mergeSort_perm _ _

theorem pairwise_inOrder (xs : List String) : (inOrder xs).Pairwise (· ≤ ·) := by
  have hsorted : (inOrder xs).Pairwise fun a b => !decide (b < a) :=
    List.pairwise_mergeSort
      (fun a b c hab hbc => by
        simp only [Bool.not_eq_true', decide_eq_false_iff_not] at hab hbc ⊢
        exact String.not_lt.mpr (String.le_trans (String.not_lt.mp hab) (String.not_lt.mp hbc)))
      (fun a b => by
        simp only [Bool.or_eq_true, Bool.not_eq_true', decide_eq_false_iff_not]
        exact (String.le_total a b).imp String.not_lt.mpr String.not_lt.mpr) xs
  exact hsorted.imp fun {a b} hab =>
    String.not_lt.mp (of_decide_eq_false ((Bool.not_eq_true' _).mp hab))

/-- Names that are in order stay as they are. -/
theorem inOrder_of_pairwise (h : xs.Pairwise (· ≤ ·)) : inOrder xs = xs :=
  (perm_inOrder xs).eq_of_pairwise (fun _ _ _ _ => String.le_antisymm) (pairwise_inOrder xs) h

/-- Names that yield something on either side are names on both sides and yield the same. -/
theorem flatMap_inOrder_congr {f g : String → List β} (hxs : xs.Nodup) (hys : ys.Nodup)
    (hf : ∀ x ∈ xs, f x ≠ [] → x ∈ ys ∧ g x = f x) (hg : ∀ y ∈ ys, g y ≠ [] → y ∈ xs ∧ f y = g y) :
    (inOrder xs).flatMap f = (inOrder ys).flatMap g := by
  have hdrop : ∀ (h : String → List β) (zs : List String),
      zs.flatMap h = (zs.filter fun z => !(h z).isEmpty).flatMap h := by
    intro h zs
    induction zs with
    | nil => rfl
    | cons z zs ih =>
      cases hz : h z with
      | nil => simp [hz, ih]
      | cons => simp [hz, ih]
  have hperm : ((inOrder xs).filter fun x => !(f x).isEmpty).Perm
      ((inOrder ys).filter fun y => !(g y).isEmpty) := by
    refine (List.perm_ext_iff_of_nodup ?_ ?_).mpr fun x => ?_
    · exact ((perm_inOrder xs).nodup_iff.mpr hxs).filter _
    · exact ((perm_inOrder ys).nodup_iff.mpr hys).filter _
    · simp only [List.mem_filter, (perm_inOrder xs).mem_iff, (perm_inOrder ys).mem_iff,
        Bool.not_eq_true', List.isEmpty_eq_false_iff]
      constructor
      · rintro ⟨hx, hne⟩
        obtain ⟨hy, hsame⟩ := hf x hx hne
        exact ⟨hy, hsame ▸ hne⟩
      · rintro ⟨hy, hne⟩
        obtain ⟨hx, hsame⟩ := hg x hy hne
        exact ⟨hx, hsame ▸ hne⟩
  have hsame := hperm.eq_of_pairwise (fun _ _ _ _ => String.le_antisymm)
    ((pairwise_inOrder xs).filter _) ((pairwise_inOrder ys).filter _)
  rw [hdrop f, hdrop g, hsame]
  rw [List.flatMap_def, List.flatMap_def]
  refine congrArg List.flatten (List.map_congr_left fun y hy => ?_)
  simp only [List.mem_filter, (perm_inOrder ys).mem_iff, Bool.not_eq_true',
    List.isEmpty_eq_false_iff] at hy
  exact (hg y hy.1 hy.2).2

end Path

namespace FileTree

variable {root after t item : FileTree} {entries : List (String × FileTree)}
  {home p q parent : List String} {path text x : String}

/-- In every directory the names are told apart, and each is one part of a path. -/
inductive WellNamed : FileTree → Prop
  | file (contents : Contents) : WellNamed (file contents)
  | dir (entries : List (String × FileTree)) (hnodup : (entries.map Prod.fst).Nodup)
    (hplain : ∀ entry ∈ entries, Path.Plain entry.1)
    (hbelow : ∀ entry ∈ entries, WellNamed entry.2) : WellNamed (dir entries)

theorem mem_of_lookup (h : entries.lookup x = some t) : (x, t) ∈ entries := by
  induction entries with
  | nil => cases h
  | cons entry entries ih =>
    rw [lookup_entry] at h
    split at h
    · rename_i hx
      obtain rfl := Option.some.inj h
      exact hx ▸ List.mem_cons_self
    · exact List.mem_cons_of_mem _ (ih h)

theorem isSome_lookup_iff : (entries.lookup x).isSome ↔ x ∈ entries.map Prod.fst := by
  induction entries with
  | nil => simp
  | cons entry entries ih =>
    rw [lookup_entry, List.map_cons, List.mem_cons]
    split
    · simp [*]
    · rename_i hx
      rw [ih]
      exact (or_iff_right hx).symm

/-- A name is in a directory if something stands under it. -/
theorem mem_names_iff (h : root.get? p = some (dir entries)) :
    x ∈ entries.map Prod.fst ↔ root.look (p ++ [x]) ≠ none := by
  rw [← isSome_lookup_iff, ne_eq, look_eq_none_iff, get?_append, h]
  cases hx : entries.lookup x <;> simp [get?, hx]

namespace WellNamed

theorem get? (h : root.WellNamed) (hget : root.get? p = some t) : t.WellNamed := by
  induction p generalizing root with
  | nil => exact Option.some.inj hget ▸ h
  | cons x p ih =>
    cases h with
    | file contents => cases hget
    | dir entries hnodup hplain hbelow =>
      obtain ⟨u, hu, hget⟩ := Option.bind_eq_some_iff.mp hget
      exact ih (hbelow _ (mem_of_lookup hu)) hget

theorem nodup (h : (FileTree.dir entries).WellNamed) : (entries.map Prod.fst).Nodup := by
  cases h with
  | dir _ hnodup => exact hnodup

theorem plain (h : (FileTree.dir entries).WellNamed) (hx : x ∈ entries.map Prod.fst) :
    Path.Plain x := by
  cases h with
  | dir _ _ hplain =>
    obtain ⟨entry, hentry, rfl⟩ := List.mem_map.mp hx
    exact hplain entry hentry

end WellNamed

/-- The names that lead to something are parts of a path each. -/
theorem WellNamed.plain_of_get? (h : root.WellNamed) (hget : root.get? p = some t) :
    ∀ x ∈ p, Path.Plain x := by
  induction p generalizing root with
  | nil => simp
  | cons y p ih =>
    cases root with
    | file contents => cases hget
    | dir entries =>
      obtain ⟨u, hu, hget⟩ := Option.bind_eq_some_iff.mp hget
      have hy : y ∈ entries.map Prod.fst := isSome_lookup_iff.mp (by rw [hu]; rfl)
      have hu' : (FileTree.dir entries).get? [y] = some u := by rw [FileTree.get?, hu]; rfl
      intro x hx
      rcases List.mem_cons.mp hx with rfl | hx
      · exact h.plain hy
      · exact ih (h.get? hu') hget x hx

theorem map_fst_putEntry (entries : List (String × FileTree)) (x : String) (item : FileTree) :
    (putEntry entries x item).map Prod.fst =
      if x ∈ entries.map Prod.fst then entries.map Prod.fst else entries.map Prod.fst ++ [x] := by
  induction entries with
  | nil => rfl
  | cons entry entries ih =>
    rw [putEntry]
    split
    · rename_i hx
      simp [hx]
    · rename_i hx
      rw [List.map_cons, ih, List.map_cons]
      by_cases hmem : x ∈ entries.map Prod.fst
      · rw [if_pos hmem, if_pos (List.mem_cons_of_mem _ hmem)]
      · have hnew : x ∉ entry.1 :: entries.map Prod.fst := by
          rw [List.mem_cons, not_or]
          exact ⟨Ne.symm hx, hmem⟩
        rw [if_neg hmem, if_neg hnew, List.cons_append]

theorem mem_putEntry {entry : String × FileTree} (h : entry ∈ putEntry entries x item) :
    entry ∈ entries ∨ entry = (x, item) := by
  induction entries with
  | nil => exact .inr (List.mem_singleton.mp h)
  | cons other entries ih =>
    rw [putEntry] at h
    split at h
    · rename_i hx
      rcases List.mem_cons.mp h with rfl | h
      · exact .inr (by rw [hx])
      · exact .inl (List.mem_cons_of_mem _ h)
    · rcases List.mem_cons.mp h with rfl | h
      · exact .inl List.mem_cons_self
      · exact (ih h).imp_left (List.mem_cons_of_mem _)

theorem WellNamed.putEntry (h : (FileTree.dir entries).WellNamed) (hx : Path.Plain x)
    (hitem : item.WellNamed) :
    (FileTree.dir (FileTree.putEntry entries x item)).WellNamed := by
  cases h with
  | dir _ hnodup hplain hbelow =>
    refine .dir _ ?_ (fun entry hentry => ?_) fun entry hentry => ?_
    · rw [map_fst_putEntry]
      split
      · exact hnodup
      · rename_i hnew
        rw [List.nodup_append]
        refine ⟨hnodup, by simp, fun y hy z hz heq => hnew ?_⟩
        rwa [← List.mem_singleton.mp hz, ← heq]
    · rcases mem_putEntry hentry with hentry | rfl
      · exact hplain entry hentry
      · exact hx
    · rcases mem_putEntry hentry with hentry | rfl
      · exact hbelow entry hentry
      · exact hitem

/-- What is put under the name of one part leaves all names so. -/
theorem WellNamed.put (h : root.WellNamed) (hdir : root.HasDir parent) (hx : Path.Plain x)
    (hitem : item.WellNamed) : (root.put (parent ++ [x]) item).WellNamed := by
  induction parent generalizing root with
  | nil =>
    obtain ⟨entries, rfl⟩ := hasDir_nil.mp hdir
    rw [List.nil_append, put_name]
    exact h.putEntry hx hitem
  | cons y parent ih =>
    obtain ⟨entries, t, rfl, hy, ht⟩ := hasDir_cons.mp hdir
    rw [List.cons_append, put_below hy]
    have hplain : Path.Plain y :=
      h.plain (isSome_lookup_iff.mp (by rw [hy]; rfl))
    have hgot : (FileTree.dir entries).get? [y] = some t := by rw [FileTree.get?, hy]; rfl
    exact h.putEntry hplain (ih (h.get? hgot) ht)

/-! ## Working on files -/

/-- The names on a way come from its steps. -/
theorem mem_of_mem_foldl_placeStep {cs : List Component} (hx : x ∈ cs.foldl placeStep p) :
    x ∈ p ∨ .name x ∈ cs := by
  induction cs generalizing p with
  | nil => exact .inl hx
  | cons c cs ih =>
    rcases ih hx with hr | hcs
    · cases c with
      | root => exact absurd hr List.not_mem_nil
      | here => exact .inl hr
      | up => exact .inl (List.dropLast_subset _ hr)
      | name y =>
        rcases List.mem_append.mp hr with hp | hy
        · exact .inl hp
        · exact .inr (by simp [List.mem_singleton.mp hy])
    · exact .inr (List.mem_cons_of_mem _ hcs)

theorem WellNamed.createDirAt {cs : List Component} (h : root.WellNamed)
    (hcs : ∀ x, .name x ∈ cs → Path.Plain x) (hne : cs ≠ [])
    (hmade : root.createDirAt p cs = .ok after) : after.WellNamed := by
  rw [createDirAt_eq] at hmade
  obtain ⟨q, hwalk, hmade⟩ := bind_eq_ok_iff.mp hmade
  split at hmade
  · rename_i hnone
    obtain rfl := Except.ok.inj hmade
    have hdir : ¬ root.HasDir q := fun hdir => by
      rw [hasDir_iff.mp hdir] at hnone
      cases hnone
    obtain ⟨hplace, hopen⟩ := of_foldlM_eq_ok hwalk
    obtain ⟨parent, x, rfl, hparent⟩ := (hopen hne).exists_parent hdir
    -- The way begins in a directory, so that the names before it are parts of a path too.
    obtain ⟨entries, hstart⟩ : root.HasDir p := by
      obtain ⟨c, rest, rfl⟩ := List.exists_cons_of_ne_nil hne
      rw [List.foldlM_cons] at hwalk
      obtain ⟨r, hstep, -⟩ := bind_eq_ok_iff.mp hwalk
      exact (of_walkStep_eq_ok hstep).1
    have hx : x ∈ cs.foldl placeStep p :=
      hplace.symm ▸ List.mem_append_right _ List.mem_cons_self
    have hplain : Path.Plain x := (mem_of_mem_foldl_placeStep hx).elim (h.plain_of_get? hstart x)
      (hcs x)
    exact h.put hparent hplain (.dir [] List.nodup_nil (by simp) (by simp))
  · cases hmade

theorem WellNamed.createDirsOn {cs : List Component} (h : root.WellNamed)
    (hcs : ∀ x, .name x ∈ cs → Path.Plain x) (p : List String) :
    (root.createDirsOn p cs).1.WellNamed := by
  have hlast : ∀ {root : FileTree} {cs : List Component}, cs ≠ [] → root.WellNamed →
      (∀ x, .name x ∈ cs → Path.Plain x) → (root.createLast p cs).1.WellNamed := by
    intro root cs hne h hcs
    unfold createLast
    split
    · exact h.createDirAt hcs hne ‹_›
    · exact h
  induction cs using List.reverseRecOn with
  | nil => exact h
  | append_singleton cs c ih =>
    have hne : cs ++ [c] ≠ [] := List.append_ne_nil_of_right_ne_nil _ (List.cons_ne_nil _ _)
    by_cases hmake : root.createDirAt p (cs ++ [c]) = .error .notFound
    · have habove := ih fun x hx => hcs x (List.mem_append_left _ hx)
      rw [createDirsOn_of_notFound hmake]
      rcases hmade : root.createDirsOn p cs with ⟨made, e | ⟨⟩⟩ <;> rw [hmade] at habove
      · exact habove
      · exact hlast hne habove hcs
    · rw [createDirsOn_of_found hmake]
      exact hlast hne h hcs

theorem WellNamed.createDirsAt (h : root.WellNamed) (home : List String) (path : String) :
    (root.createDirsAt home path).1.WellNamed := by
  rw [createDirsAt_eq]
  exact h.createDirsOn (fun x => Path.plain_of_mem_route) _

/-- A text is written under a name of one part. -/
theorem WellNamed.writeAt (h : root.WellNamed) (hname : Path.fileName? path = some x)
    (home : List String) (text : String) : (root.writeAt home path text).1.WellNamed := by
  unfold FileTree.writeAt
  split
  · exact h
  · rename_i p hwalk
    split
    · exact h
    · rename_i hfile
      obtain ⟨hplace, hopen⟩ := of_walk_eq_ok hwalk
      obtain ⟨parent, y, rfl, hparent⟩ :=
        hopen.exists_parent fun ⟨entries, hget⟩ => hfile entries hget
      rw [place?_of_components (Path.components_eq_parent_append hname)] at hplace
      obtain ⟨-, hxy⟩ := List.append_inj' (Option.some.inj hplace) rfl
      obtain rfl : x = y := (List.cons.inj hxy).1
      exact h.put hparent (Path.plain_of_fileName? hname) (.file _)

end FileTree

end PhpRefactor
