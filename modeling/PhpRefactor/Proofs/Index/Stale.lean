import PhpRefactor.Proofs.Index.Fresh
import PhpRefactor.Proofs.Syntax.Swap

/-!
# Edits through an outdated index

An index describes the tree that it was made of.  Used on any other tree it can send an edit to the
wrong place: a path may end nowhere or at another node, a parent may have lost its child, a node
may have become the root.  Nothing bad can come of it.  An edit is made where two identities agree,
that of the node at the end of the recorded path and that of the child it is asked for; so it is
refused, which leaves the tree at hand as the tree, or it is made at the node it names
(`Node.ChangedAt`) and nowhere else.  `TreeIndex.edits_changedAt` says so of every index, the empty
one and those of other trees alike, and every tree in which no identity is repeated.
-/

set_option autoImplicit false

namespace PhpRefactor

/-! ## A change of one run exchanges one child -/

namespace Segment

/-- Whatever run the change makes, it is the run with `xs` in place of a child with the identity. -/
def Exchanges (change : Segment Node → Option (Segment Node)) (i : Nat) (xs : List Node) : Prop :=
  ∀ s s' : Segment Node, change s = some s' → ∃ c, c.id = i ∧ Swap c xs s s'

theorem exists_of_spliceFirst? {α : Type} {p : α → Bool} {xs cs ds : List α}
    (h : spliceFirst? p xs cs = some ds) :
    ∃ l c r, p c = true ∧ cs = l ++ c :: r ∧ ds = l ++ xs ++ r := by
  induction cs generalizing ds with
  | nil => cases h
  | cons c cs ih =>
    rw [spliceFirst?] at h
    split at h
    · rename_i hp
      exact ⟨[], c, cs, hp, rfl, (Option.some.inj h).symm⟩
    · obtain ⟨ds, hds, rfl⟩ := Option.map_eq_some_iff.mp h
      obtain ⟨l, d, r, hp, rfl, rfl⟩ := ih hds
      exact ⟨c :: l, d, r, hp, rfl, rfl⟩

variable {i : Nat} {xs : List Node}

theorem exists_swap_stmts {cs : List Node} {s' : Segment Node}
    (h : (spliceFirst? (·.id = i) xs cs).map stmts = some s') :
    ∃ c, c.id = i ∧ Swap c xs (stmts cs) s' := by
  obtain ⟨ds, hds, rfl⟩ := Option.map_eq_some_iff.mp h
  obtain ⟨l, c, r, hc, rfl, rfl⟩ := exists_of_spliceFirst? hds
  exact ⟨c, of_decide_eq_true hc, .stmts l xs r⟩

theorem exists_swap_items {cs : List Node} {s' : Segment Node}
    (h : (spliceFirst? (·.id = i) xs cs).map items = some s') :
    ∃ c, c.id = i ∧ Swap c xs (items cs) s' := by
  obtain ⟨ds, hds, rfl⟩ := Option.map_eq_some_iff.mp h
  obtain ⟨l, c, r, hc, rfl, rfl⟩ := exists_of_spliceFirst? hds
  exact ⟨c, of_decide_eq_true hc, .items l xs r⟩

theorem exchanges_exchange (i : Nat) (x : Node) : Exchanges (exchange? (·.id = i) x) i [x] := by
  intro s s' h
  cases s with
  | required c =>
    obtain ⟨hc, rfl⟩ : c.id = i ∧ required x = s' := by simpa [exchange?] using h
    exact ⟨c, hc, .required x⟩
  | slot c =>
    cases c with
    | none => cases h
    | some c =>
      obtain ⟨hc, rfl⟩ : c.id = i ∧ slot (some x) = s' := by simpa [exchange?] using h
      exact ⟨c, hc, .filled x⟩
  | stmts cs => exact exists_swap_stmts h
  | items cs => exact exists_swap_items h

theorem exchanges_splice (i : Nat) (xs : List Node) :
    Exchanges (splice? (·.id = i) xs) i xs := by
  intro s s' h
  cases s with
  | stmts cs => exact exists_swap_stmts h
  | required c => cases h
  | slot c => cases h
  | items cs => cases h

theorem exchanges_takeOut (i : Nat) : Exchanges (takeOut? (·.id = i)) i [] := by
  intro s s' h
  cases s with
  | stmts cs => exact exists_swap_stmts h
  | items cs => exact exists_swap_items h
  | required c => cases h
  | slot c => cases h

theorem exchanges_vacate (i : Nat) : Exchanges (vacate? (·.id = i)) i [] := by
  intro s s' h
  cases s with
  | slot c =>
    cases c with
    | none => cases h
    | some c =>
      obtain ⟨hc, rfl⟩ : c.id = i ∧ slot none = s' := by simpa [vacate?] using h
      exact ⟨c, hc, .emptied⟩
  | required c => cases h
  | stmts cs => cases h
  | items cs => cases h

theorem Exchanges.first {change : Segment Node → Option (Segment Node)}
    (hchange : Exchanges change i xs) {segments segments' : List (Segment Node)}
    (h : changeFirst? change segments = some segments') :
    ∃ c, c.id = i ∧ SwapIn c xs segments segments' := by
  induction segments generalizing segments' with
  | nil => cases h
  | cons s segments ih =>
    rw [changeFirst?] at h
    split at h
    · rename_i s' hs
      obtain ⟨c, hc, hswap⟩ := hchange s s' hs
      obtain rfl := Option.some.inj h
      exact ⟨c, hc, [], segments, hswap⟩
    · obtain ⟨rest, hrest, rfl⟩ := Option.map_eq_some_iff.mp h
      obtain ⟨c, hc, hswap⟩ := ih hrest
      exact ⟨c, hc, hswap.cons s⟩

end Segment

namespace Node

variable {m m' : Node} {i : Nat} {xs : List Node}

theorem exists_swapsChild {change : Segment Node → Option (Segment Node)}
    (hchange : Segment.Exchanges change i xs) (h : m.changeSegment? change = some m') :
    ∃ c, c.id = i ∧ SwapsChild c xs m m' := by
  obtain ⟨segments, hsegments, rfl⟩ := Option.map_eq_some_iff.mp h
  obtain ⟨c, hc, hswap⟩ := hchange.first hsegments
  exact ⟨c, hc, swapsChild_withSegments hswap⟩

theorem exists_of_exchangeChild {x : Node} (h : m.exchangeChild i x = .ok m') :
    ∃ c, c.id = i ∧ SwapsChild c [x] m m' := by
  rw [exchangeChild] at h
  split at h
  · rename_i hm
    exact Except.ok.inj h ▸ exists_swapsChild (Segment.exchanges_exchange i x) hm
  · cases h

theorem exists_of_spliceChild (h : m.spliceChild i xs = .ok m') :
    ∃ c, c.id = i ∧ SwapsChild c xs m m' := by
  rw [spliceChild] at h
  split at h
  · rename_i hm
    exact Except.ok.inj h ▸ exists_swapsChild (Segment.exchanges_splice i xs) hm
  · cases h

theorem exists_of_removeChild (h : m.removeChild i = .ok m') :
    ∃ c, c.id = i ∧ SwapsChild c [] m m' := by
  rw [removeChild] at h
  split at h
  · rename_i hm
    exact Except.ok.inj h ▸ exists_swapsChild (Segment.exchanges_takeOut i) hm
  · split at h
    · rename_i hm
      exact Except.ok.inj h ▸ exists_swapsChild (Segment.exchanges_vacate i) hm
    · split at h <;> cases h

/-- One node of the tree has the identity, and the tree has become the tree with `xs` in the place
of that node. -/
def ChangedAt (root : Node) (i : Nat) (xs : List Node) (root' : Node) : Prop :=
  ∃ n, root.preorder.filter (·.id = i) = [n] ∧ (n = root ∧ xs = [root'] ∨ Swaps n xs root root')

/-- In a tree without repeated identities a node is the only one with its identity. -/
theorem filter_preorder_eq {root n : Node} (hnodup : root.ids.Nodup) (hn : n ∈ root.preorder) :
    root.preorder.filter (·.id = n.id) = [n] := by
  obtain ⟨l, r, hsplit⟩ := List.mem_iff_append.mp hn
  rw [ids, hsplit, List.map_append, List.map_cons] at hnodup
  have hmem : n.id ∉ l.map (·.id) ++ r.map (·.id) := (List.nodup_middle.mp hnodup).notMem
  have hother : ∀ p ∈ l ++ r, p.id ≠ n.id := by
    intro p hp heq
    exact hmem (by simpa [heq] using List.mem_map_of_mem (f := (·.id)) hp)
  rw [hsplit, List.filter_append, List.filter_cons_of_pos (by simp),
    List.filter_eq_nil_iff.mpr fun p hp => by simpa using hother p (List.mem_append_left r hp),
    List.filter_eq_nil_iff.mpr fun p hp => by simpa using hother p (List.mem_append_right l hp),
    List.nil_append]

theorem changedAt_of_swaps {root root' n : Node} (hnodup : root.ids.Nodup)
    (h : Swaps n xs root root') : root.ChangedAt n.id xs root' :=
  ⟨n, filter_preorder_eq hnodup h.mem_preorder, .inr h⟩

end Node

/-! ## The edits -/

namespace TreeIndex

variable {root n : Node} {i : Nat}

/-- What is found has the identity that was looked for, and the recorded path leads to it. -/
theorem exists_of_find? {index : TreeIndex} (h : index.find? root i = some n) :
    n.id = i ∧ ∃ p, index.placement? i = some p ∧ root.at? p.path = some n := by
  obtain ⟨p, hp, h⟩ := Option.bind_eq_some_iff.mp h
  obtain ⟨q, hq, h⟩ := Option.bind_eq_some_iff.mp h
  split at h
  · rename_i hid
    obtain rfl := Option.some.inj h
    exact ⟨hid, p, hp, hq⟩
  · cases h

theorem update?_of_find? {index : TreeIndex} (h : index.find? root i = some n)
    (change : Node → Node) :
    ∃ p, root.at? p = some n ∧ index.update? root i change = root.setAt? p (change n) := by
  obtain ⟨-, p, hp, hpath⟩ := exists_of_find? h
  refine ⟨p.path, hpath, ?_⟩
  rw [update?, hp]
  change (index.find? root i >>= fun n => root.setAt? p.path (change n)) = _
  rw [h]
  rfl

/-- An edit of the parent that exchanges a child exchanges it in the tree. -/
theorem exists_of_editParent {index : TreeIndex} {root' : Node} {xs : List Node}
    {change : Node → Except TreeError Node}
    (hchange : ∀ m m', change m = .ok m' → ∃ c, c.id = i ∧ Node.SwapsChild c xs m m')
    (h : index.editParent root i change = .ok root') :
    ∃ c, c.id = i ∧ Node.Swaps c xs root root' := by
  unfold editParent at h
  cases hp : index.placement i with
  | error e => simp [hp, bind, Except.bind] at h
  | ok p =>
    cases hparent : p.parent with
    | none => simp [hp, hparent, bind, Except.bind, throw, throwThe, MonadExceptOf.throw] at h
    | some parent =>
      cases hfind : index.find? root parent with
      | none =>
        simp [hp, hparent, hfind, bind, Except.bind, throw, throwThe, MonadExceptOf.throw] at h
      | some m =>
        cases hm : change m with
        | error e => simp [hp, hparent, hfind, hm, bind, Except.bind] at h
        | ok m' =>
          obtain ⟨c, hc, hswap⟩ := hchange m m' hm
          obtain ⟨path, hpath, hupdate⟩ := update?_of_find? hfind fun _ => m'
          obtain ⟨r, hset, hswaps⟩ := Node.exists_setAt?_swaps hpath (.child hswap)
          rw [hset] at hupdate
          simp only [hp, hparent, hfind, hm, hupdate, bind, Except.bind] at h
          obtain rfl : r = root' := Except.ok.inj h
          exact ⟨c, hc, hswaps⟩

/-- With an edit through any index a tree becomes the tree changed at the node that the edit names,
or the edit is refused. -/
def Spares (root : Node) (i : Nat) (xs : List Node) (result : Except TreeError Node) : Prop :=
  (∃ e, result = .error e) ∨ ∃ root', result = .ok root' ∧ root.ChangedAt i xs root'

theorem spares_editParent (index : TreeIndex) (hnodup : root.ids.Nodup) {xs : List Node}
    {change : Node → Except TreeError Node}
    (hchange : ∀ m m', change m = .ok m' → ∃ c, c.id = i ∧ Node.SwapsChild c xs m m') :
    Spares root i xs (index.editParent root i change) := by
  cases h : index.editParent root i change with
  | error e => exact .inl ⟨e, rfl⟩
  | ok root' =>
    obtain ⟨c, rfl, hswaps⟩ := exists_of_editParent hchange h
    exact .inr ⟨root', rfl, Node.changedAt_of_swaps hnodup hswaps⟩

theorem spares_replace (index : TreeIndex) (hnodup : root.ids.Nodup) (i : Nat) (x : Node) :
    Spares root i [x] (index.replace root i x) := by
  rw [replace]
  split
  · rename_i hid
    refine .inr ⟨x, rfl, root, ?_, .inl ⟨rfl, rfl⟩⟩
    exact hid ▸ Node.filter_preorder_eq hnodup root.mem_preorder_self
  · exact spares_editParent index hnodup fun _ _ => Node.exists_of_exchangeChild

/-- Every index is safe to edit with, of whatever tree it was made.  An exchange, a splice or a
removal is refused, or the tree is changed at the one node with the identity; the node is found
where the identity is right, and its position can then be written without a change to anything
else. -/
theorem edits_changedAt (index : TreeIndex) (hnodup : root.ids.Nodup) (i : Nat) :
    (∀ x, Spares root i [x] (index.replace root i x)) ∧
    (∀ xs, Spares root i xs (index.splice root i xs)) ∧
    Spares root i [] (index.remove root i) ∧
    match index.find? root i with
    | none => ∀ change, index.update? root i change = none
    | some n => n.id = i ∧ ∀ span : Span, ∃ root',
        index.update? root i (fun m => { m with span := span }) = some root' ∧
          root.ChangedAt i [{ n with span := span }] root' := by
  refine ⟨spares_replace index hnodup i, ?_, ?_, ?_⟩
  · exact fun xs => spares_editParent index hnodup fun _ _ => Node.exists_of_spliceChild
  · exact spares_editParent index hnodup fun _ _ => Node.exists_of_removeChild
  cases h : index.find? root i with
  | none =>
    intro change
    rw [update?, h]
    cases index.placement? i <;> rfl
  | some n =>
    obtain ⟨rfl, -⟩ := exists_of_find? h
    refine ⟨rfl, fun span => ?_⟩
    obtain ⟨path, hpath, hupdate⟩ := update?_of_find? h fun m => { m with span := span }
    obtain ⟨root', hset, hplace⟩ := Node.exists_setAt?_eq hpath { n with span := span }
    refine ⟨root', hupdate.trans hset, ?_⟩
    rcases hplace with ⟨rfl, rfl⟩ | hswaps
    · exact ⟨n, Node.filter_preorder_eq hnodup n.mem_preorder_self, .inl ⟨rfl, rfl⟩⟩
    · exact Node.changedAt_of_swaps hnodup hswaps

/-- A page with a loop after its first statement. -/
def drafted : Node :=
  ⟨1, .none, .file [
    ⟨2, .none, .exprStmt ⟨3, .none, .var "first"⟩⟩,
    ⟨4, .none, .whileLoop ⟨5, .none, .var "going"⟩ [⟨6, .none, .echo []⟩]⟩]⟩

/-- The page without the first statement and with another one after the loop. -/
def revised : Node :=
  ⟨1, .none, .file [
    ⟨4, .none, .whileLoop ⟨5, .none, .var "going"⟩ [⟨6, .none, .echo []⟩]⟩,
    ⟨7, .none, .returnStmt none⟩]⟩

theorem edits_changedAt_revised :
    revised.ids.Nodup ∧
    (∃ root', (of drafted).remove revised 4 = .ok root' ∧ revised.ChangedAt 4 [] root') ∧
    (∃ e, (of drafted).remove revised 6 = .error e) ∧
    (of drafted).find? revised 4 = none ∧
    ∃ root', (of drafted).update? revised 1 (fun m => { m with span := ⟨0, 9, 1⟩ }) = some root' ∧
      ∃ n : Node, n.id = 1 ∧ revised.ChangedAt 1 [{ n with span := ⟨0, 9, 1⟩ }] root' := by
  have hnodup : revised.ids.Nodup := by decide +kernel
  have hremoved : ((of drafted).remove revised 4).isOk = true := by decide +kernel
  have hrefused : ((of drafted).remove revised 6).isOk = false := by decide +kernel
  have hlost : ((of drafted).find? revised 4).isNone = true := by decide +kernel
  have hfound : ((of drafted).find? revised 1).isSome = true := by decide +kernel
  refine ⟨hnodup, ?_, ?_, by simpa using hlost, ?_⟩
  · obtain ⟨-, -, ⟨e, he⟩ | hchanged, -⟩ := edits_changedAt (of drafted) hnodup 4
    · rw [he] at hremoved
      cases hremoved
    · exact hchanged
  · obtain ⟨-, -, he | ⟨root', hok, -⟩, -⟩ := edits_changedAt (of drafted) hnodup 6
    · exact he
    · rw [hok] at hrefused
      cases hrefused
  · obtain ⟨n, hn⟩ := Option.isSome_iff_exists.mp hfound
    have hresult := (edits_changedAt (of drafted) hnodup 1).2.2.2
    rw [hn] at hresult
    obtain ⟨root', hupdate, hchanged⟩ := hresult.2 ⟨0, 9, 1⟩
    exact ⟨root', hupdate, n, hresult.1, hchanged⟩

end TreeIndex

end PhpRefactor
