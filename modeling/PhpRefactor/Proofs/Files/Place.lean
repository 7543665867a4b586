import PhpRefactor.Files.Tree
import PhpRefactor.Proofs.Files.Path
import PhpRefactor.Proofs.Results

/-!
# Places in a file system

There are no links in the model, so where a path leads is written in the path and the place of the
working directory (`FileTree.place?`); the file system only has to have the directories on the way.

Work on files keeps directories and spares files (`FileTree.Keeps`).  A path that could be walked
can still be walked afterwards, and it leads to the same place (`FileTree.Keeps.walk`).
-/

set_option autoImplicit false

namespace PhpRefactor

namespace FileTree

variable {root before after t item : FileTree} {path x : String} {home p q : List String}

/-! ## Places -/

/-- A directory stands at a place. -/
def HasDir (root : FileTree) (p : List String) : Prop := ∃ entries, root.get? p = some (dir entries)

theorem hasDir_nil : root.HasDir [] ↔ ∃ entries, root = dir entries := by
  cases root <;> simp [HasDir, get?]

theorem hasDir_cons :
    root.HasDir (x :: p) ↔ ∃ entries t, root = dir entries ∧ entries.lookup x = some t ∧
      t.HasDir p := by
  cases root with
  | file c => simp [HasDir, get?]
  | dir entries => cases h : entries.lookup x <;> simp [HasDir, get?, h]

/-- What a directory stands in is a directory. -/
theorem HasDir.of_append (h : root.HasDir (p ++ q)) : root.HasDir p := by
  induction p generalizing root with
  | nil =>
    cases root with
    | file c =>
      obtain ⟨entries, hget⟩ := h
      cases q <;> exact nomatch hget
    | dir entries => exact hasDir_nil.mpr ⟨entries, rfl⟩
  | cons x p ih =>
    rw [List.cons_append] at h
    obtain ⟨entries, t, hroot, hx, ht⟩ := hasDir_cons.mp h
    exact hasDir_cons.mpr ⟨entries, t, hroot, hx, ih ht⟩

/-- Something can stand at a place: it is a directory, or stands in one. -/
def Open (root : FileTree) (p : List String) : Prop :=
  root.HasDir p ∨ ∃ parent x, p = parent ++ [x] ∧ root.HasDir parent

/-- Only a name leads out of the directories that are there. -/
theorem hasDir_placeStep (h : root.HasDir p) {c : Component} (hc : ∀ x, c ≠ .name x) :
    root.HasDir (placeStep p c) := by
  cases c with
  | root => exact HasDir.of_append (p := []) h
  | here => exact h
  | up =>
    obtain ⟨below, hbelow⟩ := List.dropLast_prefix p
    exact HasDir.of_append (hbelow.symm ▸ h)
  | name x => exact absurd rfl (hc x)

theorem of_walkStep_eq_ok {step : Component} (h : root.walkStep p step = .ok q) :
    root.HasDir p ∧ placeStep p step = q ∧ root.Open q := by
  unfold walkStep at h
  split at h
  · exact nomatch h
  · exact nomatch h
  · rename_i entries hget
    have hdir : root.HasDir p := ⟨entries, hget⟩
    refine ⟨hdir, Except.ok.inj h, Except.ok.inj h ▸ ?_⟩
    by_cases hname : ∃ x, step = .name x
    · obtain ⟨x, rfl⟩ := hname
      exact .inr ⟨p, x, rfl, hdir⟩
    · exact .inl (hasDir_placeStep hdir fun x hx => hname ⟨x, hx⟩)

theorem walkStep_of_hasDir (hdir : root.HasDir p) (step : Component) :
    root.walkStep p step = .ok (placeStep p step) := by
  obtain ⟨entries, hget⟩ := hdir
  rw [walkStep, hget]

theorem steps_ne_nil (path : String) : steps path ≠ [] :=
  fun h => Path.parts_ne_nil _ (List.map_eq_nil_iff.mp h)

/-- Parts that say nothing lead nowhere. -/
theorem foldl_placeStep_parts (ps : List (List Char)) (p : List String) :
    (ps.map partStep).foldl placeStep p = (ps.filterMap Path.component?).foldl placeStep p := by
  induction ps generalizing p with
  | nil => rfl
  | cons part ps ih =>
    rw [List.map_cons, List.foldl_cons, List.filterMap_cons, partStep]
    cases Path.component? part with
    | none => exact ih p
    | some c => exact ih (placeStep p c)

/-- The place that a path leads to, if every directory on the way exists. -/
def place? (home : List String) (path : String) : Option (List String) :=
  if path.isEmpty then none else some ((steps path).foldl placeStep (start home path))

/-- A path leads from where it starts to where its route leads. -/
theorem place?_eq (home : List String) (path : String) :
    place? home path =
      if path.isEmpty then none
      else some ((Path.route path).foldl placeStep (start home path)) := by
  rw [place?, steps, foldl_placeStep_parts, Path.route]

theorem ne_empty_of_components {components : List Component}
    (h : Path.components path = components ++ [.name x]) : ¬ path.isEmpty := by
  intro hempty
  obtain rfl := String.isEmpty_iff.mp hempty
  have hnil : Path.components "" = [] := by decide
  exact absurd (h.symm.trans hnil) (by simp)

/-- The places above a path do not depend on the name at its end. -/
theorem start_of_components {base : String}
    (h : Path.components path = Path.components base ++ [.name x]) (home : List String) :
    start home path = start home base := by
  rw [start, start, Path.isRooted_of_components h]

/-- A name behind a path leads to that name below the place of the path. -/
theorem place?_of_components {base : String}
    (h : Path.components path = Path.components base ++ [.name x]) :
    place? home path =
      some ((Path.route base).foldl placeStep (start home base) ++ [x]) := by
  rw [place?_eq, if_neg (ne_empty_of_components h), start_of_components h,
    Path.route_of_components h, List.foldl_append]
  rfl

/-- A walk that comes to its end leads to the place of its steps. -/
theorem of_foldlM_eq_ok {steps : List Component} (h : steps.foldlM root.walkStep p = .ok q) :
    steps.foldl placeStep p = q ∧ (steps ≠ [] → root.Open q) := by
  induction steps generalizing p with
  | nil => exact ⟨Except.ok.inj h, fun hne => absurd rfl hne⟩
  | cons step steps ih =>
    rw [List.foldlM_cons] at h
    obtain ⟨r, hstep, h⟩ := bind_eq_ok_iff.mp h
    obtain ⟨-, rfl, hopen⟩ := of_walkStep_eq_ok hstep
    obtain ⟨hrest, hend⟩ := ih h
    refine ⟨hrest, fun _ => ?_⟩
    cases steps with
    | nil => exact Except.ok.inj h ▸ hopen
    | cons => exact hend (List.cons_ne_nil _ _)

theorem of_walk_eq_ok (h : root.walk home path = .ok p) :
    place? home path = some p ∧ root.Open p := by
  unfold walk at h
  unfold place?
  split at h
  · exact nomatch h
  · rename_i hne
    rw [if_neg hne]
    obtain ⟨hplace, hopen⟩ := of_foldlM_eq_ok h
    exact ⟨congrArg some hplace, hopen (steps_ne_nil path)⟩

/-- Where nothing stands but something can, it stands in a directory. -/
theorem Open.exists_parent (h : root.Open p) (hdir : ¬ root.HasDir p) :
    ∃ parent x, p = parent ++ [x] ∧ root.HasDir parent :=
  h.resolve_left hdir

/-! ## What is kept -/

/-- Directories are kept, and the files in spared places are the same. -/
structure Keeps (spared : List String → Prop) (before after : FileTree) : Prop where
  dir : ∀ p, before.HasDir p → after.HasDir p
  file : ∀ p, spared p → ∀ c, after.get? p = some (file c) ↔ before.get? p = some (file c)

namespace Keeps

variable {spared spared' : List String → Prop} {last : FileTree}

theorem refl (root : FileTree) : Keeps spared root root := ⟨fun _ => id, fun _ _ _ => Iff.rfl⟩

theorem trans (h : Keeps spared before after) (h' : Keeps spared after last) :
    Keeps spared before last :=
  ⟨fun p hp => h'.dir p (h.dir p hp), fun p hp c => (h'.file p hp c).trans (h.file p hp c)⟩

theorem mono (h : Keeps spared before after) (hsub : ∀ p, spared' p → spared p) :
    Keeps spared' before after :=
  ⟨h.dir, fun p hp => h.file p (hsub p hp)⟩

theorem walk (h : Keeps spared before after) (hwalk : before.walk home path = .ok p) :
    after.walk home path = .ok p := by
  have hfold : ∀ {steps : List Component} {p q : List String},
      steps.foldlM before.walkStep p = .ok q → steps.foldlM after.walkStep p = .ok q := by
    intro steps
    induction steps with
    | nil => exact id
    | cons step steps ih =>
      intro p q hq
      rw [List.foldlM_cons] at hq ⊢
      obtain ⟨r, hstep, hq⟩ := bind_eq_ok_iff.mp hq
      obtain ⟨hdir, rfl, -⟩ := of_walkStep_eq_ok hstep
      rw [walkStep_of_hasDir (h.dir _ hdir)]
      exact ih hq
  unfold FileTree.walk at hwalk ⊢
  split at hwalk
  · exact nomatch hwalk
  · rename_i hne
    rw [if_neg hne]
    exact hfold hwalk

end Keeps

/-! ## Putting something at a place -/

theorem lookup_entry (entry : String × FileTree) (entries : List (String × FileTree)) (y : String) :
    (entry :: entries).lookup y = if y = entry.1 then some entry.2 else entries.lookup y := by
  obtain ⟨x, t⟩ := entry
  by_cases h : y = x
  · simp [h]
  · simp [List.lookup_cons, beq_false_of_ne h, h]

theorem lookup_putEntry (entries : List (String × FileTree)) (x y : String) (item : FileTree) :
    (putEntry entries x item).lookup y = if y = x then some item else entries.lookup y := by
  induction entries with
  | nil => rw [putEntry, lookup_entry]
  | cons entry entries ih =>
    rw [putEntry, lookup_entry]
    by_cases hx : entry.1 = x
    · rw [if_pos hx, lookup_entry, hx]
      by_cases hy : y = x
      · rw [if_pos hy, if_pos hy]
      · rw [if_neg hy, if_neg hy, if_neg hy]
    · rw [if_neg hx, lookup_entry, ih]
      by_cases hy : y = entry.1
      · rw [if_pos hy, if_pos hy, if_neg (hy ▸ hx)]
      · rw [if_neg hy, if_neg hy]

theorem get?_putEntry (entries : List (String × FileTree)) (x y : String) (ys : List String)
    (item : FileTree) :
    (dir (putEntry entries x item)).get? (y :: ys) =
      if y = x then item.get? ys else (dir entries).get? (y :: ys) := by
  rw [get?, lookup_putEntry]
  split
  · rfl
  · rw [get?]

/-- Putting something under a name of a directory. -/
theorem put_name (entries : List (String × FileTree)) (x : String) (item : FileTree) :
    (dir entries).put [x] item = dir (putEntry entries x item) := by
  unfold put
  cases entries.lookup x with
  | none => rfl
  | some old =>
    unfold put
    rfl

theorem put_below {entries : List (String × FileTree)} (hx : entries.lookup x = some t) :
    (dir entries).put (x :: p) item = dir (putEntry entries x (t.put p item)) := by
  rw [put, hx]

/-! ## Reading -/

theorem find_eq_ok_iff :
    root.find home path = .ok t ↔ ∃ p, root.walk home path = .ok p ∧ root.get? p = some t := by
  rw [find, bind_eq_ok_iff]
  refine exists_congr fun p => and_congr_right fun _ => ?_
  cases root.get? p <;> simp [pure, Except.pure]

theorem readAt_eq_ok_iff {text : String} :
    root.readAt home path = .ok text ↔
      ∃ p, root.walk home path = .ok p ∧ root.get? p = some (file (.text text)) := by
  rw [← find_eq_ok_iff, readAt]
  rcases root.find home path with _ | ⟨_ | _⟩ | _ <;> simp [bind, Except.bind, pure, Except.pure]

end FileTree

end PhpRefactor
