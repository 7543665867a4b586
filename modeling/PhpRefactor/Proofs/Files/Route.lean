import PhpRefactor.Proofs.Files.Place

/-!
# The way of a path

A path comes by places before it comes to its end (`FileTree.passed`), and it may leave some of them
again (`FileTree.left`).  What a walk comes to depends on what stands at these places and on nothing
else in the file system (`FileTree.walkStep_congr`).

`FileTree.look` is what can be seen at a place: nothing, a directory, or a file and what it holds.
Two file systems in which the same is to be seen everywhere are the same but for the order of their
entries.  All that is known of writing a text is what is to be seen afterwards
(`FileTree.writeAt_cases`).
-/

set_option autoImplicit false

namespace PhpRefactor

namespace FileTree

variable {root other after t item : FileTree} {path name : String} {home p q r parent : List String}
  {x : String} {c : Component} {cs : List Component}

/-! ## What stands at a place -/

/-- What can be seen of a file or a directory from outside. -/
def face : FileTree → Option Contents
  | file contents => some contents
  | dir _ => none

/-- What stands at a place: nothing, a directory, or a file with its contents. -/
def look (root : FileTree) (p : List String) : Option (Option Contents) := (root.get? p).map face

theorem hasDir_iff : root.HasDir p ↔ root.look p = some none := by
  rw [HasDir, look, Option.map_eq_some_iff]
  constructor
  · rintro ⟨entries, h⟩
    exact ⟨_, h, rfl⟩
  · rintro ⟨t, h, hface⟩
    cases t with
    | file contents => cases hface
    | dir entries => exact ⟨entries, h⟩

theorem look_eq_file_iff {contents : Contents} :
    root.look p = some (some contents) ↔ root.get? p = some (file contents) := by
  rw [look, Option.map_eq_some_iff]
  constructor
  · rintro ⟨t, h, hface⟩
    cases t with
    | file c => exact Option.some.inj hface ▸ h
    | dir entries => cases hface
  · intro h
    exact ⟨_, h, rfl⟩

theorem look_eq_none_iff : root.look p = none ↔ root.get? p = none := Option.map_eq_none_iff

theorem get?_append (root : FileTree) (p q : List String) :
    root.get? (p ++ q) = root.get? p >>= fun t => t.get? q := by
  induction p generalizing root with
  | nil => rw [List.nil_append, get?, Option.bind_eq_bind, Option.bind_some]
  | cons x p ih =>
    cases root with
    | file contents => rfl
    | dir entries =>
      rw [List.cons_append, get?, get?]
      cases entries.lookup x with
      | none => rfl
      | some t => exact ih t

/-- Nothing stands below what is no directory. -/
theorem look_below (h : ¬ root.HasDir p) (x : String) (q : List String) :
    root.look (p ++ x :: q) = none := by
  rw [look_eq_none_iff, get?_append]
  cases hp : root.get? p with
  | none => rfl
  | some t =>
    cases t with
    | file contents => rfl
    | dir entries => exact absurd ⟨entries, hp⟩ h

/-- What is put where nothing or a file was is to be seen there, and all else is as it was. -/
theorem look_put (h : root.HasDir parent) (hdir : ¬ root.HasDir (parent ++ [x]))
    (hitem : ∀ y ys, item.get? (y :: ys) = none) (q : List String) :
    (root.put (parent ++ [x]) item).look q =
      if q = parent ++ [x] then some item.face else root.look q := by
  induction parent generalizing root q with
  | nil =>
    obtain ⟨entries, rfl⟩ := hasDir_nil.mp h
    rw [List.nil_append, put_name]
    cases q with
    | nil => rfl
    | cons y ys =>
      by_cases hy : y = x
      · subst hy
        cases ys with
        | nil => rw [if_pos rfl, look, get?_putEntry, if_pos rfl]; rfl
        | cons z zs =>
          have hbelow : (dir entries).look ([y] ++ z :: zs) = none := look_below hdir z zs
          rw [if_neg (by simp), look, get?_putEntry, if_pos rfl, hitem]
          exact hbelow.symm
      · rw [if_neg (by simp [hy]), look, look, get?_putEntry, if_neg hy]
  | cons y parent ih =>
    obtain ⟨entries, t, rfl, hy, ht⟩ := hasDir_cons.mp h
    have hget : ∀ zs, (dir entries).get? (y :: zs) = t.get? zs := fun zs => by rw [get?, hy]; rfl
    have hlook : ∀ zs, (dir entries).look (y :: zs) = t.look zs := fun zs => by
      rw [look, hget, look]
    rw [List.cons_append, put_below hy]
    cases q with
    | nil => rfl
    | cons z zs =>
      by_cases hz : z = y
      · subst hz
        have hdir' : ¬ t.HasDir (parent ++ [x]) := by
          rintro ⟨below, hbelow⟩
          exact hdir ⟨below, (hget _).trans hbelow⟩
        have hput := ih ht hdir' zs
        rw [look, get?_putEntry, if_pos rfl, hlook]
        simpa [look] using hput
      · rw [if_neg (by simp [hz]), look, look, get?_putEntry, if_neg hz]

/-! ## Walks -/

/-- A step depends on what stands at the place. -/
theorem walkStep_congr (h : root.look p = other.look p) (c : Component) :
    root.walkStep p c = other.walkStep p c := by
  unfold look at h
  unfold walkStep
  rcases hroot : root.get? p with _ | ⟨_ | _⟩ <;> rcases hother : other.get? p with _ | ⟨_ | _⟩ <;>
    simp [hroot, hother, face] at h ⊢

/-- There is no step where nothing stands. -/
theorem walkStep_of_look_eq_none (h : root.look p = none) (c : Component) :
    root.walkStep p c = .error .notFound := by
  unfold walkStep
  rw [look_eq_none_iff.mp h]

/-- What is read at a place. -/
def textAt (root : FileTree) (p : List String) : Except FileError String :=
  match root.look p with
  | none => .error .notFound
  | some none => .error .isDirectory
  | some (some (.text s)) => .ok s
  | some (some (.bytes _)) => .error .notText

theorem textAt_congr (h : root.look p = other.look p) : root.textAt p = other.textAt p := by
  rw [textAt, textAt, h]

theorem readAt_eq (root : FileTree) (home : List String) (path : String) :
    root.readAt home path = root.walk home path >>= root.textAt := by
  rw [readAt, find, bind_assoc]
  refine bind_congr fun p => ?_
  rw [textAt, look]
  rcases root.get? p with _ | ⟨_ | _⟩ | _ <;> rfl

/-! ## The places of a path -/

/-- The places that these steps come by, from one place on. -/
def passedFrom (p : List String) : List Component → List (List String)
  | [] => [p]
  | c :: cs => p :: passedFrom (placeStep p c) cs

/-- The places that these steps leave again by going up, or for the root. -/
def leftFrom (p : List String) : List Component → List (List String)
  | [] => []
  | c :: cs => (if c = .up ∨ c = .root then [p] else []) ++ leftFrom (placeStep p c) cs

/-- The places that a path comes by, the one that it leads to among them: these are the places that
the path and all paths above it lead to. -/
def passed (home : List String) (path : String) : List (List String) :=
  passedFrom (start home path) (Path.route path)

/-- The places that a path leaves again by going up. -/
def left (home : List String) (path : String) : List (List String) :=
  leftFrom (start home path) (Path.route path)

theorem mem_passedFrom_self (p : List String) (cs : List Component) : p ∈ passedFrom p cs := by
  cases cs <;> exact List.mem_cons_self

theorem mem_passedFrom_end (p : List String) (cs : List Component) :
    cs.foldl placeStep p ∈ passedFrom p cs := by
  induction cs generalizing p with
  | nil => exact List.mem_singleton_self p
  | cons c cs ih => exact List.mem_cons_of_mem _ (ih _)

/-- What is passed with one step more. -/
theorem mem_passedFrom_concat :
    r ∈ passedFrom p (cs ++ [c]) ↔
      r ∈ passedFrom p cs ∨ r = (cs ++ [c]).foldl placeStep p := by
  induction cs generalizing p with
  | nil => simp [passedFrom]
  | cons d cs ih => simp [passedFrom, ih, or_assoc]

/-- What is left with one step more. -/
theorem mem_leftFrom_concat :
    r ∈ leftFrom p (cs ++ [c]) ↔
      r ∈ leftFrom p cs ∨ (c = .up ∨ c = .root) ∧ r = cs.foldl placeStep p := by
  induction cs generalizing p with
  | nil => simp [leftFrom]
  | cons d cs ih => simp [leftFrom, ih, or_assoc]

/-- Parts that say nothing pass nothing. -/
theorem mem_passedFrom_parts (ps : List (List Char)) (p : List String) :
    r ∈ passedFrom p (ps.map partStep) ↔ r ∈ passedFrom p (ps.filterMap Path.component?) := by
  induction ps generalizing p with
  | nil => rfl
  | cons part ps ih =>
    rw [List.map_cons, List.filterMap_cons, partStep, passedFrom, List.mem_cons, ih]
    cases Path.component? part with
    | none => exact or_iff_right_of_imp fun h => h ▸ mem_passedFrom_self p _
    | some c => exact List.mem_cons.symm

/-- Parts that say nothing leave nothing. -/
theorem leftFrom_parts (ps : List (List Char)) (p : List String) :
    leftFrom p (ps.map partStep) = leftFrom p (ps.filterMap Path.component?) := by
  induction ps generalizing p with
  | nil => rfl
  | cons part ps ih =>
    rw [List.map_cons, List.filterMap_cons, partStep, leftFrom, ih]
    cases Path.component? part with
    | none => rfl
    | some c => rfl

/-! ## What a walk depends on -/

/-- On the way of a walk that comes to its end there are directories, the end left out. -/
theorem hasDir_of_foldlM_eq_ok (h : cs.foldlM root.walkStep p = .ok q) (hr : r ∈ passedFrom p cs) :
    r = q ∨ root.HasDir r := by
  induction cs generalizing p with
  | nil => exact .inl ((List.mem_singleton.mp hr).trans (Except.ok.inj h))
  | cons c cs ih =>
    rw [List.foldlM_cons] at h
    obtain ⟨s, hstep, h⟩ := bind_eq_ok_iff.mp h
    obtain ⟨hdir, rfl, -⟩ := of_walkStep_eq_ok hstep
    rcases List.mem_cons.mp hr with rfl | hr
    · exact .inr hdir
    · exact ih h hr

/-- Where there are directories all the way the walk comes to its end. -/
theorem foldlM_walkStep_of_hasDir (hdir : ∀ r ∈ passedFrom p cs, root.HasDir r) :
    cs.foldlM root.walkStep p = .ok (cs.foldl placeStep p) := by
  induction cs generalizing p with
  | nil => rfl
  | cons c cs ih =>
    rw [List.foldlM_cons, walkStep_of_hasDir (hdir p List.mem_cons_self)]
    exact ih fun r hr => hdir r (List.mem_cons_of_mem _ hr)

/-- A walk depends on what stands on the way. -/
theorem foldlM_walkStep_congr (h : ∀ r ∈ passedFrom p cs, root.look r = other.look r) :
    cs.foldlM root.walkStep p = cs.foldlM other.walkStep p := by
  induction cs generalizing p with
  | nil => rfl
  | cons c cs ih =>
    rw [List.foldlM_cons, List.foldlM_cons, walkStep_congr (h p (mem_passedFrom_self p _))]
    cases hwalk : other.walkStep p c with
    | error e => rfl
    | ok q =>
      obtain ⟨-, rfl, -⟩ := of_walkStep_eq_ok hwalk
      exact ih fun r hr => h r (List.mem_cons_of_mem _ hr)

theorem walk_congr (h : ∀ r ∈ passed home path, root.look r = other.look r) :
    root.walk home path = other.walk home path := by
  rw [walk, walk, steps]
  exact congrArg (ite _ _) (foldlM_walkStep_congr fun r hr =>
    h r ((mem_passedFrom_parts _ _).mp hr))

theorem mem_passed_of_place? (h : place? home path = some p) : p ∈ passed home path := by
  rw [place?_eq] at h
  split at h
  · exact nomatch h
  · exact Option.some.inj h ▸ mem_passedFrom_end _ _

/-- A walk from where nothing stands in one file system, past new directories of another, finds
nothing there either: it does not go up out of them and does not end in one. -/
theorem readFrom_of_look_eq_none (hnone : other.look p = none)
    (hpassed : ∀ r ∈ passedFrom p cs, root.look r = other.look r ∨ root.HasDir r)
    (hend : root.look (cs.foldl placeStep p) = other.look (cs.foldl placeStep p))
    (hleft : ∀ r ∈ leftFrom p cs, root.HasDir r → other.HasDir r) :
    cs.foldlM root.walkStep p >>= root.textAt = .error .notFound := by
  induction cs generalizing p with
  | nil =>
    change root.textAt p = _
    rw [List.foldl_nil] at hend
    rw [textAt, hend, hnone]
  | cons c cs ih =>
    rw [List.foldlM_cons]
    rcases hpassed p (mem_passedFrom_self p _) with hsame | hdir
    · rw [walkStep_of_look_eq_none (hsame.trans hnone)]
      rfl
    · have hnotdir : ¬ other.HasDir p := fun h => nomatch hnone.symm.trans (hasDir_iff.mp h)
      have hnext : other.look (placeStep p c) = none := by
        cases c with
        | here => exact hnone
        | name x => exact look_below hnotdir x []
        | up | root => exact absurd (hleft p (by simp [leftFrom]) hdir) hnotdir
      rw [walkStep_of_hasDir hdir]
      exact ih hnext (fun r hr => hpassed r (List.mem_cons_of_mem _ hr)) hend
        fun r hr => hleft r (List.mem_append_right _ hr)

theorem readFrom_congr
    (hpassed : ∀ r ∈ passedFrom p cs,
      root.look r = other.look r ∨ root.HasDir r ∧ other.look r = none)
    (hend : root.look (cs.foldl placeStep p) = other.look (cs.foldl placeStep p))
    (hleft : ∀ r ∈ leftFrom p cs, root.HasDir r → other.HasDir r) :
    cs.foldlM root.walkStep p >>= root.textAt = cs.foldlM other.walkStep p >>= other.textAt := by
  induction cs generalizing p with
  | nil => exact textAt_congr hend
  | cons c cs ih =>
    rcases hpassed p (mem_passedFrom_self p _) with hsame | ⟨-, hnone⟩
    · rw [List.foldlM_cons, List.foldlM_cons, walkStep_congr hsame]
      cases hwalk : other.walkStep p c with
      | error e => rfl
      | ok q =>
        obtain ⟨-, rfl, -⟩ := of_walkStep_eq_ok hwalk
        exact ih (fun r hr => hpassed r (List.mem_cons_of_mem _ hr)) hend
          fun r hr => hleft r (List.mem_append_right _ hr)
    · rw [readFrom_of_look_eq_none hnone (fun r hr => (hpassed r hr).imp_right And.left) hend hleft,
        List.foldlM_cons, walkStep_of_look_eq_none hnone]
      rfl

/-- What is read through a path is the same in two file systems, if all that differs on its way are
new directories, of which it leaves none and in none of which it ends. -/
theorem readAt_congr
    (hpassed : ∀ r ∈ passed home path,
      root.look r = other.look r ∨ root.HasDir r ∧ other.look r = none)
    (hend : ∀ q, place? home path = some q → root.look q = other.look q)
    (hleft : ∀ r ∈ left home path, root.HasDir r → other.HasDir r) :
    root.readAt home path = other.readAt home path := by
  rw [readAt_eq, readAt_eq, walk, walk]
  unfold place? at hend
  split
  · rfl
  · rename_i hne
    rw [if_neg hne] at hend
    refine readFrom_congr (fun r hr => hpassed r ((mem_passedFrom_parts _ _).mp hr))
      (hend _ rfl) fun r hr => hleft r ?_
    rwa [steps, leftFrom_parts] at hr

/-- What is read through a path depends on what stands on the way. -/
theorem readAt_congr_passed (h : ∀ r ∈ passed home path, root.look r = other.look r) :
    root.readAt home path = other.readAt home path := by
  rw [readAt_eq, readAt_eq, walk_congr h]
  cases hwalk : other.walk home path with
  | error e => rfl
  | ok p => exact textAt_congr (h p (mem_passed_of_place? (of_walk_eq_ok hwalk).1))

/-! ## A name below a path -/

/-- The place of a name below a path. -/
theorem place?_join (h : Path.Plain name) (home : List String) (base : String) :
    place? home (Path.join base name) =
      some ((Path.route base).foldl placeStep (start home base) ++ [name]) :=
  place?_of_components (Path.components_join h base)

/-- A path with a name at its end comes by the places of the path above, and by its own. -/
theorem mem_passed_of_components {base : String}
    (h : Path.components path = Path.components base ++ [.name x]) :
    r ∈ passed home path ↔ r ∈ passed home base ∨ place? home path = some r := by
  rw [place?_of_components h, Option.some.injEq, passed, start_of_components h,
    Path.route_of_components h, mem_passedFrom_concat, List.foldl_append, eq_comm (a := r)]
  rfl

/-- Where there are directories all the way, a name below a path can be walked to. -/
theorem walk_join (h : Path.Plain name) {base : String}
    (hdir : ∀ r ∈ passed home base, root.HasDir r) :
    root.walk home (Path.join base name) =
      .ok ((Path.route base).foldl placeStep (start home base) ++ [name]) := by
  have hjoin := Path.components_join h base
  obtain ⟨ps, hparts, hbase⟩ := Path.exists_parts_join h base
  have hroute : Path.route base = ps.filterMap Path.component? := by
    rcases hbase with hbase | ⟨-, hbase⟩
    · rw [Path.route, hbase, List.filterMap_append]
      exact List.append_nil _
    · rw [Path.route, hbase]
  have hstep : partStep name.toList = .name name := by rw [partStep, h.component]; rfl
  have hfront : ∀ r ∈ passedFrom (start home base) (ps.map partStep), root.HasDir r := by
    intro r hr
    refine hdir r ?_
    rw [passed, hroute]
    exact (mem_passedFrom_parts ps _).mp hr
  rw [walk, if_neg (ne_empty_of_components hjoin), start_of_components hjoin, steps, hparts,
    List.map_append, List.foldlM_append, foldlM_walkStep_of_hasDir hfront]
  change [partStep name.toList].foldlM root.walkStep ((ps.map partStep).foldl _ _) = _
  rw [List.foldlM_cons, hstep, walkStep_of_hasDir (hfront _ (mem_passedFrom_end _ _)),
    foldl_placeStep_parts, ← hroute]
  rfl

/-! ## Writing -/

/-- What comes of writing a text: nothing changes, or the text stands where the path leads, where no
directory was, and all else is as it was. -/
theorem writeAt_cases (root : FileTree) (home : List String) (path text : String) :
    (∃ e, root.writeAt home path text = (root, .error e)) ∨
      ∃ p after, root.writeAt home path text = (after, .ok ()) ∧ root.walk home path = .ok p ∧
        ¬ root.HasDir p ∧
        ∀ q, after.look q = if q = p then some (some (.text text)) else root.look q := by
  unfold writeAt
  split
  · exact .inl ⟨_, rfl⟩
  · rename_i p hwalk
    split
    · exact .inl ⟨_, rfl⟩
    · rename_i hfile
      have hnotdir : ¬ root.HasDir p := by
        rintro ⟨entries, hget⟩
        exact hfile entries hget
      obtain ⟨parent, x, rfl, hparent⟩ := (of_walk_eq_ok hwalk).2.exists_parent hnotdir
      exact .inr ⟨_, _, rfl, hwalk, hnotdir, look_put hparent hnotdir fun _ _ => rfl⟩

/-- A text that is written stands where its path leads, and everything else is kept. -/
theorem of_writeAt_eq_ok {text : String} (h : root.writeAt home path text = (after, .ok ())) :
    ∃ p, root.walk home path = .ok p ∧ Keeps (· ≠ p) root after ∧
      after.get? p = some (file (.text text)) := by
  rcases root.writeAt_cases home path text with
    ⟨e, hwrite⟩ | ⟨p, last, hwrite, hwalk, hnotdir, hlook⟩
  · exact nomatch (Prod.mk.inj (h.symm.trans hwrite)).2
  · obtain rfl : after = last := (Prod.mk.inj (h.symm.trans hwrite)).1
    refine ⟨p, hwalk, ⟨fun q hq => ?_, fun q hq c => ?_⟩, ?_⟩
    · have hne : q ≠ p := by
        rintro rfl
        exact hnotdir hq
      rw [hasDir_iff, hlook, if_neg hne]
      exact hasDir_iff.mp hq
    · rw [← look_eq_file_iff, ← look_eq_file_iff, hlook, if_neg hq]
    · rw [← look_eq_file_iff, hlook, if_pos rfl]

theorem of_writeAt_eq_error {text : String} {e : FileError}
    (h : root.writeAt home path text = (after, .error e)) : after = root := by
  rcases root.writeAt_cases home path text with ⟨e', hwrite⟩ | ⟨p, last, hwrite, -⟩
  · exact (Prod.mk.inj (h.symm.trans hwrite)).1
  · exact nomatch (Prod.mk.inj (h.symm.trans hwrite)).2

/-- Whether a text can be written depends on what stands on the way. -/
theorem writeAt_congr (h : ∀ r ∈ passed home path, root.look r = other.look r) (text : String) :
    (root.writeAt home path text).2 = (other.writeAt home path text).2 := by
  rw [writeAt, writeAt, walk_congr h]
  cases hwalk : other.walk home path with
  | error e => rfl
  | ok p =>
    have hlook := h p (mem_passed_of_place? (of_walk_eq_ok hwalk).1)
    unfold look at hlook
    dsimp only
    rcases hroot : root.get? p with _ | ⟨_ | _⟩ <;>
      rcases hother : other.get? p with _ | ⟨_ | _⟩ <;>
      simp [hroot, hother, face] at hlook ⊢

end FileTree

end PhpRefactor
