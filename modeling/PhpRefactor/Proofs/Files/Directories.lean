import PhpRefactor.Proofs.Files.Route
import Mathlib.Data.List.Induction
import Mathlib.Tactic.ByContra

/-!
# Creating directories

Directories are created along a way, from the first one that is missing to the end.  Nothing changes
but that directories are new on the way (`FileTree.Furnishes`), and what comes of it depends on
what stands on the way and on nothing else (`FileTree.createDirsOn_congr`).

Once the way leads to a directory there is nothing left to create.  When it cannot be created, some
directories before the obstacle may be new, and the next attempt may meet another obstacle: on the
way `new/../file/below` the first one creates `new` and then says that `file` exists, and the second
one says that `file` is no directory.  That is so only for a way that goes up again out of what is
missing (`FileTree.createDirsOn_twice`).
-/

set_option autoImplicit false

namespace PhpRefactor

namespace FileTree

variable {root other before after last : FileTree} {p q r : List String} {c : Component}
  {cs : List Component} {P Q : List String → Prop} {e : FileError} {result : Except FileError Unit}

/-! ## New directories -/

/-- Nothing changes but that directories are new in some of these places. -/
def Furnishes (P : List String → Prop) (before after : FileTree) : Prop :=
  ∀ r, after.look r = before.look r ∨ P r ∧ before.look r = none ∧ after.look r = some none

namespace Furnishes

theorem refl (root : FileTree) : Furnishes P root root := fun _ => .inl rfl

theorem trans (h : Furnishes P before after) (h' : Furnishes P after last) :
    Furnishes P before last := by
  intro r
  rcases h r with hsame | ⟨hr, hnone, hdir⟩
  · rw [← hsame]
    exact h' r
  · refine .inr ⟨hr, hnone, ?_⟩
    rcases h' r with hsame | ⟨-, hnone', -⟩
    · exact hsame.trans hdir
    · exact nomatch hdir.symm.trans hnone'

theorem mono (h : Furnishes P before after) (hsub : ∀ r, P r → Q r) : Furnishes Q before after :=
  fun r => (h r).imp_right fun ⟨hr, hlook⟩ => ⟨hsub r hr, hlook⟩

theorem hasDir (h : Furnishes P before after) (hr : before.HasDir r) : after.HasDir r := by
  rcases h r with hsame | ⟨-, -, hdir⟩
  · exact hasDir_iff.mpr (hsame.trans (hasDir_iff.mp hr))
  · exact hasDir_iff.mpr hdir

theorem look_of_not (h : Furnishes P before after) (hr : ¬ P r) : after.look r = before.look r :=
  (h r).resolve_right fun hnew => hr hnew.1

/-- Files are the same. -/
theorem file (h : Furnishes P before after) (r : List String) (contents : Contents) :
    after.look r = some (some contents) ↔ before.look r = some (some contents) := by
  rcases h r with hsame | ⟨-, hnone, hdir⟩
  · rw [hsame]
  · rw [hnone, hdir]
    exact ⟨nofun, nofun⟩

theorem keeps (h : Furnishes P before after) : Keeps (fun _ => True) before after :=
  ⟨fun _ => h.hasDir, fun r _ c => by rw [← look_eq_file_iff, ← look_eq_file_iff, h.file r c]⟩

end Furnishes

/-! ## Ways to directories -/

theorem isDirPlace_iff :
    root.isDirPlace p cs = true ↔ ∃ q, cs.foldlM root.walkStep p = .ok q ∧ root.HasDir q := by
  rw [isDirPlace]
  cases cs.foldlM root.walkStep p with
  | error e => simp
  | ok q => rcases hget : root.get? q with _ | ⟨_ | _⟩ <;> simp [HasDir, hget, isDir]

/-- A way leads to a directory if there are directories all the way. -/
theorem isDirPlace_iff_passed :
    root.isDirPlace p cs = true ↔ ∀ r ∈ passedFrom p cs, root.HasDir r := by
  rw [isDirPlace_iff]
  constructor
  · rintro ⟨q, hwalk, hdir⟩ r hr
    exact (hasDir_of_foldlM_eq_ok hwalk hr).elim (fun h => h ▸ hdir) id
  · intro hdir
    exact ⟨_, foldlM_walkStep_of_hasDir hdir, hdir _ (mem_passedFrom_end p cs)⟩

theorem isDirPlace_congr (h : ∀ r ∈ passedFrom p cs, root.look r = other.look r) :
    root.isDirPlace p cs = other.isDirPlace p cs := by
  rw [Bool.eq_iff_iff, isDirPlace_iff_passed, isDirPlace_iff_passed]
  refine forall₂_congr fun r hr => ?_
  rw [hasDir_iff, hasDir_iff, h r hr]

/-- All of a way is there if its end is and so is all that it leaves again. -/
theorem hasDir_of_leftFrom (hend : root.HasDir (cs.foldl placeStep p))
    (hleft : ∀ r ∈ leftFrom p cs, root.HasDir r) (hr : r ∈ passedFrom p cs) : root.HasDir r := by
  induction cs generalizing p r with
  | nil => exact List.mem_singleton.mp hr ▸ hend
  | cons c cs ih =>
    have hrest : ∀ t ∈ passedFrom (placeStep p c) cs, root.HasDir t :=
      fun _ => ih hend fun t ht => hleft t (List.mem_append_right _ ht)
    rcases List.mem_cons.mp hr with rfl | hr
    · have hnext := hrest _ (mem_passedFrom_self _ cs)
      cases c with
      | here => exact hnext
      | name x => exact HasDir.of_append (q := [x]) hnext
      | up | root => exact hleft r (by simp [leftFrom])
    · exact hrest r hr

/-! ## One directory -/

theorem createDirAt_eq (root : FileTree) (p : List String) (cs : List Component) :
    root.createDirAt p cs = cs.foldlM root.walkStep p >>= fun q =>
      if root.look q = none then .ok (root.put q (dir [])) else .error .alreadyExists := by
  rw [createDirAt]
  refine bind_congr fun q => ?_
  rw [look]
  cases root.get? q <;> rfl

/-- A directory that is created is new at the end of its way, and all else is as it was. -/
theorem of_createDirAt_eq_ok (hne : cs ≠ []) (h : root.createDirAt p cs = .ok after) :
    ∃ q, cs.foldlM root.walkStep p = .ok q ∧ root.look q = none ∧
      ∀ r, after.look r = if r = q then some none else root.look r := by
  rw [createDirAt_eq] at h
  obtain ⟨q, hwalk, h⟩ := bind_eq_ok_iff.mp h
  refine ⟨q, hwalk, ?_⟩
  split at h
  · rename_i hnone
    obtain rfl := Except.ok.inj h
    have hdir : ¬ root.HasDir q := fun hdir => nomatch hnone.symm.trans (hasDir_iff.mp hdir)
    obtain ⟨parent, x, rfl, hparent⟩ := ((of_foldlM_eq_ok hwalk).2 hne).exists_parent hdir
    exact ⟨hnone, look_put hparent hdir fun _ _ => rfl⟩
  · exact nomatch h

theorem furnishes_createDirAt (hne : cs ≠ []) (h : root.createDirAt p cs = .ok after) :
    Furnishes (· ∈ passedFrom p cs) root after := by
  obtain ⟨q, hwalk, hnone, hlook⟩ := of_createDirAt_eq_ok hne h
  intro r
  by_cases hr : r = q
  · rw [hlook, if_pos hr]
    exact .inr ⟨hr ▸ (of_foldlM_eq_ok hwalk).1 ▸ mem_passedFrom_end p cs, hr ▸ hnone, rfl⟩
  · exact .inl ((hlook r).trans (if_neg hr))

/-- A directory that was created is where its way leads. -/
theorem isDirPlace_of_createDirAt (hne : cs ≠ []) (h : root.createDirAt p cs = .ok after) :
    after.isDirPlace p cs = true := by
  obtain ⟨q, hwalk, -, hlook⟩ := of_createDirAt_eq_ok hne h
  refine isDirPlace_iff_passed.mpr fun r hr => ?_
  rcases hasDir_of_foldlM_eq_ok hwalk hr with rfl | hdir
  · exact hasDir_iff.mpr ((hlook r).trans (if_pos rfl))
  · exact (furnishes_createDirAt hne h).hasDir hdir

/-- Whether a directory can be created depends on what stands on the way. -/
theorem createDirAt_congr (hne : cs ≠ []) (hP : ∀ r ∈ passedFrom p cs, P r)
    (h : ∀ r, P r → root.look r = other.look r) :
    (∃ made made', root.createDirAt p cs = .ok made ∧ other.createDirAt p cs = .ok made' ∧
        ∀ r, P r → made.look r = made'.look r) ∨
      ∃ e, root.createDirAt p cs = .error e ∧ other.createDirAt p cs = .error e := by
  have hfold := foldlM_walkStep_congr fun r hr => h r (hP r hr)
  have hroot := createDirAt_eq root p cs
  have hother := createDirAt_eq other p cs
  rw [hfold] at hroot
  cases hwalk : cs.foldlM other.walkStep p with
  | error e =>
    rw [hwalk] at hroot hother
    exact .inr ⟨e, hroot, hother⟩
  | ok q =>
    rw [hwalk] at hroot hother
    have hlook := h q (hP q ((of_foldlM_eq_ok hwalk).1 ▸ mem_passedFrom_end p cs))
    by_cases hnone : other.look q = none
    · replace hroot := hroot.trans (if_pos (hlook.trans hnone))
      replace hother := hother.trans (if_pos hnone)
      refine .inl ⟨_, _, hroot, hother, fun r hr => ?_⟩
      obtain ⟨s, hs, -, hmade⟩ := of_createDirAt_eq_ok hne hroot
      obtain ⟨s', hs', -, hmade'⟩ := of_createDirAt_eq_ok hne hother
      obtain rfl : s = s' := Except.ok.inj (hs.symm.trans (hfold.trans hs'))
      rw [hmade, hmade', h r hr]
    · exact .inr ⟨_, hroot.trans (if_neg (hlook ▸ hnone)), hother.trans (if_neg hnone)⟩

/-! ## All directories on a way -/

/-- Creates the directories on a way that are missing. -/
def createDirsOn (root : FileTree) (p : List String) (cs : List Component) :
    FileTree × Except FileError Unit :=
  root.createDirsFrom p cs.reverse

theorem createDirsAt_eq (root : FileTree) (home : List String) (path : String) :
    root.createDirsAt home path = root.createDirsOn (start home path) (Path.route path) := rfl

/-- Creates the last directory of a way, unless it is there. -/
def createLast (root : FileTree) (p : List String) (cs : List Component) :
    FileTree × Except FileError Unit :=
  match root.createDirAt p cs with
  | .ok made => (made, .ok ())
  | .error e => (root, if root.isDirPlace p cs then .ok () else .error e)

theorem createDirsOn_of_found (h : root.createDirAt p (cs ++ [c]) ≠ .error .notFound) :
    root.createDirsOn p (cs ++ [c]) = root.createLast p (cs ++ [c]) := by
  rw [createDirsOn, List.reverse_concat, createDirsFrom, createLast, List.reverse_cons,
    List.reverse_reverse]
  cases hmake : root.createDirAt p (cs ++ [c]) with
  | ok made => rfl
  | error e =>
    cases e with
    | notFound => exact absurd hmake h
    | _ => rfl

/-- Where the last directory has nowhere to stand, those before it are created first. -/
theorem createDirsOn_of_notFound (h : root.createDirAt p (cs ++ [c]) = .error .notFound) :
    root.createDirsOn p (cs ++ [c]) =
      match root.createDirsOn p cs with
      | (made, .error e) => (made, .error e)
      | (made, .ok ()) => made.createLast p (cs ++ [c]) := by
  rw [createDirsOn, List.reverse_concat, createDirsFrom, List.reverse_cons, List.reverse_reverse, h,
    createDirsOn]
  dsimp only
  rcases root.createDirsFrom p cs.reverse with ⟨made, e | ⟨⟩⟩
  · rfl
  · dsimp only
    unfold createLast
    cases made.createDirAt p (cs ++ [c]) <;> rfl

theorem furnishes_createLast (hne : cs ≠ []) (h : root.createLast p cs = (after, result)) :
    Furnishes (· ∈ passedFrom p cs) root after := by
  rw [createLast] at h
  split at h <;> obtain ⟨rfl, -⟩ := Prod.mk.inj h
  · exact furnishes_createDirAt hne ‹_›
  · exact .refl root

theorem isDirPlace_of_createLast (hne : cs ≠ [])
    (h : root.createLast p cs = (after, .ok ())) : after.isDirPlace p cs = true := by
  rw [createLast] at h
  split at h <;> obtain ⟨rfl, hresult⟩ := Prod.mk.inj h
  · exact isDirPlace_of_createDirAt hne ‹_›
  · split at hresult
    · assumption
    · exact nomatch hresult

theorem of_createLast_eq_error (h : root.createLast p cs = (after, .error e)) :
    after = root ∧ root.createDirAt p cs = .error e ∧ root.isDirPlace p cs = false := by
  rw [createLast] at h
  split at h <;> obtain ⟨rfl, hresult⟩ := Prod.mk.inj h
  · exact nomatch hresult
  · rename_i hmake
    split at hresult
    · exact nomatch hresult
    · rename_i hdir
      exact ⟨rfl, Except.error.inj hresult ▸ hmake, Bool.not_eq_true _ ▸ hdir⟩

theorem createLast_congr (hne : cs ≠ []) (hP : ∀ r ∈ passedFrom p cs, P r)
    (h : ∀ r, P r → root.look r = other.look r) :
    (root.createLast p cs).2 = (other.createLast p cs).2 ∧
      ∀ r, P r → (root.createLast p cs).1.look r = (other.createLast p cs).1.look r := by
  unfold createLast
  rcases createDirAt_congr hne hP h with ⟨made, made', hmade, hmade', hlook⟩ | ⟨e, he, he'⟩
  · rw [hmade, hmade']
    exact ⟨rfl, hlook⟩
  · rw [he, he', isDirPlace_congr fun r hr => h r (hP r hr)]
    exact ⟨rfl, h⟩

/-- Only directories on the way are new. -/
theorem furnishes_createDirsOn (root : FileTree) (p : List String) (cs : List Component) :
    Furnishes (· ∈ passedFrom p cs) root (root.createDirsOn p cs).1 := by
  induction cs using List.reverseRecOn with
  | nil => exact .refl root
  | append_singleton cs c ih =>
    have hne : cs ++ [c] ≠ [] := List.append_ne_nil_of_right_ne_nil _ (List.cons_ne_nil _ _)
    by_cases h : root.createDirAt p (cs ++ [c]) = .error .notFound
    · have habove := ih.mono fun r hr => mem_passedFrom_concat (c := c).mpr (.inl hr)
      rw [createDirsOn_of_notFound h]
      rcases hmade : root.createDirsOn p cs with ⟨made, e | ⟨⟩⟩
      · rw [hmade] at habove
        exact habove
      · rw [hmade] at habove
        exact habove.trans (furnishes_createLast hne rfl)
    · rw [createDirsOn_of_found h]
      exact furnishes_createLast hne rfl

/-- When the directories have been created, the way leads to a directory. -/
theorem isDirPlace_of_createDirsOn (hne : cs ≠ [])
    (h : root.createDirsOn p cs = (after, .ok ())) : after.isDirPlace p cs = true := by
  induction cs using List.reverseRecOn with
  | nil => exact absurd rfl hne
  | append_singleton cs c ih =>
    by_cases hmake : root.createDirAt p (cs ++ [c]) = .error .notFound
    · rw [createDirsOn_of_notFound hmake] at h
      rcases hmade : root.createDirsOn p cs with ⟨made, e | ⟨⟩⟩
      · rw [hmade] at h
        exact nomatch (Prod.mk.inj h).2
      · rw [hmade] at h
        exact isDirPlace_of_createLast hne h
    · rw [createDirsOn_of_found hmake] at h
      exact isDirPlace_of_createLast hne h

/-- Where the way leads to a directory there is nothing to create. -/
theorem createDirsOn_of_isDirPlace (h : root.isDirPlace p cs = true) :
    root.createDirsOn p cs = (root, .ok ()) := by
  rcases List.eq_nil_or_concat cs with rfl | ⟨above, c, rfl⟩
  · rfl
  · rw [List.concat_eq_append] at h ⊢
    obtain ⟨q, hwalk, hdir⟩ := isDirPlace_iff.mp h
    have hmake : root.createDirAt p (above ++ [c]) = .error .alreadyExists := by
      rw [createDirAt_eq, hwalk]
      exact if_neg (by rw [hasDir_iff.mp hdir]; exact nofun)
    rw [createDirsOn_of_found (by rw [hmake]; exact nofun), createLast, hmake, h]
    rfl

/-- What comes of creating directories depends on what stands on the way. -/
theorem createDirsOn_congr (hP : ∀ r ∈ passedFrom p cs, P r)
    (h : ∀ r, P r → root.look r = other.look r) :
    (root.createDirsOn p cs).2 = (other.createDirsOn p cs).2 ∧
      ∀ r, P r → (root.createDirsOn p cs).1.look r = (other.createDirsOn p cs).1.look r := by
  induction cs using List.reverseRecOn with
  | nil => exact ⟨rfl, h⟩
  | append_singleton cs c ih =>
    have hne : cs ++ [c] ≠ [] := List.append_ne_nil_of_right_ne_nil _ (List.cons_ne_nil _ _)
    by_cases hmake : root.createDirAt p (cs ++ [c]) = .error .notFound
    · have hmake' : other.createDirAt p (cs ++ [c]) = .error .notFound := by
        rcases createDirAt_congr hne hP h with ⟨made, -, hmade, -⟩ | ⟨e, he, he'⟩
        · exact nomatch hmade.symm.trans hmake
        · rw [he', ← he, hmake]
      rw [createDirsOn_of_notFound hmake, createDirsOn_of_notFound hmake']
      obtain ⟨hresult, hlook⟩ := ih fun r hr => hP r (mem_passedFrom_concat.mpr (.inl hr))
      rcases hmade : root.createDirsOn p cs with ⟨made, e | ⟨⟩⟩ <;>
        rcases hmade' : other.createDirsOn p cs with ⟨made', e' | ⟨⟩⟩ <;>
        rw [hmade, hmade'] at hresult hlook
      · exact ⟨hresult, hlook⟩
      · exact nomatch hresult
      · exact nomatch hresult
      · exact createLast_congr hne hP hlook
    · have hmake' : other.createDirAt p (cs ++ [c]) ≠ .error .notFound := by
        rcases createDirAt_congr hne hP h with ⟨-, made', -, hmade', -⟩ | ⟨e, he, he'⟩
        · rw [hmade']
          exact nofun
        · rwa [he', ← he]
      rw [createDirsOn_of_found hmake, createDirsOn_of_found hmake']
      exact createLast_congr hne hP h

theorem furnishes_createDirsAt (root : FileTree) (home : List String) (path : String) :
    Furnishes (· ∈ passed home path) root (root.createDirsAt home path).1 :=
  furnishes_createDirsOn root _ _

theorem keeps_createDirsAt (root : FileTree) (home : List String) (path : String) :
    Keeps (fun _ => True) root (root.createDirsAt home path).1 :=
  (furnishes_createDirsAt root home path).keeps

theorem createDirsAt_congr {home : List String} {path : String}
    (hP : ∀ r ∈ passed home path, P r) (h : ∀ r, P r → root.look r = other.look r) :
    (root.createDirsAt home path).2 = (other.createDirsAt home path).2 ∧
      ∀ r, P r →
        (root.createDirsAt home path).1.look r = (other.createDirsAt home path).1.look r :=
  createDirsOn_congr hP h

/-! ## Creating directories again -/

/-- Where a way leaves no directory that is missing, nothing is created unless all is. -/
theorem createDirsOn_of_leftFrom (hleft : ∀ r ∈ leftFrom p cs, root.HasDir r)
    (h : root.createDirsOn p cs = (after, .error e)) : after = root := by
  induction cs using List.reverseRecOn generalizing after e with
  | nil => exact nomatch (Prod.mk.inj h).2
  | append_singleton cs c ih =>
    have hleft' : ∀ r ∈ leftFrom p cs, root.HasDir r := fun r hr =>
      hleft r (mem_leftFrom_concat.mpr (.inl hr))
    by_cases hmake : root.createDirAt p (cs ++ [c]) = .error .notFound
    · rw [createDirsOn_of_notFound hmake] at h
      rcases hmade : root.createDirsOn p cs with ⟨made, e' | ⟨⟩⟩
      · rw [hmade] at h
        exact (Prod.mk.inj h).1 ▸ ih hleft' hmade
      rw [hmade] at h
      obtain ⟨rfl, hlast, hnotdir⟩ := of_createLast_eq_error h
      by_cases hne : cs = []
      · subst hne
        exact (Prod.mk.inj hmade).1.symm
      · -- The way before is there now.  As the last directory could not be created, it was there
        -- before: it is left again, or a file stands in it.
        have hfurnishes := furnishes_createDirsOn root p cs
        have hdirs := isDirPlace_of_createDirsOn hne hmade
        rw [hmade] at hfurnishes
        have hpassed := isDirPlace_iff_passed.mp hdirs
        have hend : after.HasDir (cs.foldl placeStep p) := hpassed _ (mem_passedFrom_end p cs)
        have hwalk : (cs ++ [c]).foldlM after.walkStep p =
            .ok (placeStep (cs.foldl placeStep p) c) := by
          rw [List.foldlM_append, foldlM_walkStep_of_hasDir hpassed]
          change after.walkStep _ c >>= pure = _
          rw [walkStep_of_hasDir hend]
          rfl
        have hbefore : root.HasDir (cs.foldl placeStep p) := by
          cases c with
          | up | root => exact hleft _ (mem_leftFrom_concat.mpr (.inr ⟨by simp, rfl⟩))
          | here =>
            have hdir := isDirPlace_iff.mpr ⟨_, hwalk, hend⟩
            exact nomatch hdir.symm.trans hnotdir
          | name x =>
            by_contra hmissing
            have hnone : after.look (cs.foldl placeStep p ++ [x]) = none := by
              rcases hfurnishes (cs.foldl placeStep p ++ [x]) with hsame | ⟨-, -, hdir⟩
              · exact hsame.trans (look_below hmissing x [])
              · have hdir' := isDirPlace_iff.mpr ⟨_, hwalk, hasDir_iff.mpr hdir⟩
                exact nomatch hdir'.symm.trans hnotdir
            rw [createDirAt_eq, hwalk] at hlast
            exact nomatch hlast.symm.trans (if_pos hnone)
        have hthere : root.isDirPlace p cs = true := isDirPlace_iff_passed.mpr
          fun r hr => hasDir_of_leftFrom hbefore hleft' hr
        exact (Prod.mk.inj (hmade.symm.trans (createDirsOn_of_isDirPlace hthere))).1
    · rw [createDirsOn_of_found hmake] at h
      exact (of_createLast_eq_error h).1

/-- Creating directories a second time changes nothing and is answered as the first time was, if all
could be created or the way leaves no directory that is missing. -/
theorem createDirsOn_twice (h : root.createDirsOn p cs = (after, result))
    (hlasting : result = .ok () ∨ ∀ r ∈ leftFrom p cs, root.HasDir r) :
    after.createDirsOn p cs = (after, result) := by
  cases result with
  | ok _ =>
    by_cases hne : cs = []
    · subst hne
      rfl
    · exact createDirsOn_of_isDirPlace (isDirPlace_of_createDirsOn hne h)
  | error e =>
    obtain rfl := createDirsOn_of_leftFrom (hlasting.resolve_left nofun) h
    exact h

end FileTree

end PhpRefactor
