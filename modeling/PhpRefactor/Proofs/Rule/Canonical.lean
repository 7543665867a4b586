import PhpRefactor.Proofs.Rule.Lengthen
import PhpRefactor.Proofs.Syntax.Rewrite

/-!
# Making accesses canonical all at once

A pass makes one fetch longer after the other, and the longer fetch has in it what was there before.
What should come of it can be said without a pass: judge every fetch on the tree as it is, let the
first access rule that wants it decide, and in one walk put the longer fetches in the places of the
short ones (`Node.lengthenAll`).  New nodes are numbered in the order of the fetches.

If one fetch is made longer before that walk, the other fetches are judged as before
(`CanonicalAccess.containerIn?_grafted`) and the walk comes to the same end
(`GraftSite.rewrite_lengthened`).  The walk is stated for any rules, and what else they do to the
tree is left to the hypotheses.
-/

set_option autoImplicit false

namespace PhpRefactor

theorem eq_filter_of_sublist {α : Type} [DecidableEq α] {l l' : List α} (h : l.Sublist l')
    (hnodup : l'.Nodup) : l = l'.filter (· ∈ l) := by
  have hself : l.filter (· ∈ l) = l := List.filter_eq_self.mpr fun a ha => by simpa using ha
  have hsublist : l.Sublist (l'.filter (· ∈ l)) := by
    have hfilter := h.filter fun a => decide (a ∈ l)
    rw [hself] at hfilter
    exact hfilter
  refine hsublist.eq_of_length (List.Perm.length_eq ?_)
  rw [List.perm_ext_iff_of_nodup (h.nodup hnodup) (hnodup.filter _)]
  intro a
  rw [List.mem_filter, decide_eq_true_iff]
  exact ⟨fun ha => ⟨h.subset ha, ha⟩, fun ha => ha.2⟩

/-- A fetch that is to be made longer has nothing below it but its variable. -/
theorem CanonicalAccess.preorder_of_containerIn? {access : CanonicalAccess} {oracle : Oracle}
    {around : List Node} {n : Node} {x : String}
    (h : access.containerIn? oracle around n = some x) :
    ∃ object : Node, n.preorder = [n, object] ∧ object.kind = .var := by
  obtain ⟨object, hform, hobject, -⟩ := containerIn?_eq_some_iff.mp h
  refine ⟨object, ?_, by rw [Node.kind, hobject]; rfl⟩
  simp [Node.preorder_eq, Node.children, Form.children, hform, hobject, Form.segments,
    Segment.toList]

/-! ## What the rules make of a node -/

namespace RuleConfig

/-- What the rules make of a node: the first access rule that wants it makes it longer, with new
identities from `fresh` on, and a condition that is always true opens. -/
def fate (rules : List RuleConfig) (fresh : Nat → Nat) (around : List Node) (n : Node) : Fate :=
  match firstAccess? rules around n with
  | some (access, x) => .becomes (access.lengthened n x (fresh n.id))
  | none =>
    if .trueCondition ∈ rules ∧ (TrueCondition.settledBody? .declared around n).isSome then .opens
    else .stays

section

variable {rules : List RuleConfig} {fresh : Nat → Nat} {around around' : List Node} {n n' : Node}

theorem firstAccess?_congr
    (h : ∀ access : CanonicalAccess, access.containerIn? .declared around' n' =
      access.containerIn? .declared around n) :
    firstAccess? rules around' n' = firstAccess? rules around n := by
  refine findSome?_congr_left fun rule _ => ?_
  cases rule with
  | trueCondition => rfl
  | canonicalAccess access => exact congrArg (Option.map (access, ·)) (h access)

theorem kind_of_firstAccess?_isSome (h : (firstAccess? rules around n).isSome) :
    n.kind = .fetch := by
  obtain ⟨⟨access, x⟩, hfirst⟩ := Option.isSome_iff_exists.mp h
  obtain ⟨-, hx⟩ := of_firstAccess?_eq_some hfirst
  obtain ⟨object, hform, -⟩ := CanonicalAccess.containerIn?_eq_some_iff.mp hx
  rw [Node.kind, hform]
  rfl

/-- A fate depends on what the rules want of the node. -/
theorem fate_congr (hid : n'.id = n.id) (hspan : n'.span = n.span)
    (haccess : ∀ access : CanonicalAccess, access.containerIn? .declared around' n' =
      access.containerIn? .declared around n)
    (hsettled : .trueCondition ∈ rules →
      (TrueCondition.settledBody? .declared around' n').isSome =
        (TrueCondition.settledBody? .declared around n).isSome) :
    fate rules fresh around' n' = fate rules fresh around n := by
  unfold fate
  rw [firstAccess?_congr haccess]
  cases firstAccess? rules around n with
  | some found =>
    dsimp only
    rw [CanonicalAccess.lengthened, CanonicalAccess.lengthened, hid, hspan]
  | none =>
    dsimp only
    by_cases hrule : .trueCondition ∈ rules
    · rw [hsettled hrule]
    · rw [if_neg fun h => hrule h.1, if_neg fun h => hrule h.1]

theorem fate_of_not_wants (h : ∀ rule ∈ rules, ¬ rule.Wants around n) :
    fate rules fresh around n = .stays := by
  have hfirst : firstAccess? rules around n = none :=
    firstAccess?_eq_none_iff.mpr fun rule hrule _ => h rule hrule
  rw [fate, hfirst]
  exact if_neg fun hopens => h .trueCondition hopens.1 hopens.2

/-- No rule wants a node of a fetch that was made longer. -/
theorem not_wants_lengthened {access : CanonicalAccess} {x : String} {next : Nat} {q : Node}
    {inner : List Node} (rule : RuleConfig) (rest : List Node)
    (hq : (access.lengthened n x next).Occurs inner q) : ¬ rule.Wants (inner ++ rest) q := by
  cases rule with
  | canonicalAccess access' =>
    unfold Wants
    dsimp only
    rw [CanonicalAccess.containerIn?_lengthened access' rest hq]
    exact Bool.false_ne_true
  | trueCondition =>
    intro hwants
    obtain ⟨body, hbody⟩ := Option.isSome_iff_exists.mp hwants
    obtain ⟨cond, _, _, _, hform, -⟩ := TrueCondition.settledBody?_eq_some_iff.mp hbody
    have hmem : q ∈ (access.lengthened n x next).preorder := Node.mem_preorder_iff.mpr ⟨inner, hq⟩
    rcases CanonicalAccess.mem_preorder_lengthened.mp hmem with rfl | rfl | rfl <;>
      exact absurd hform (by simp [CanonicalAccess.lengthened])

theorem firstAccess?_lengthened (rules : List RuleConfig) {access : CanonicalAccess} {x : String}
    {next : Nat} {q : Node} {inner : List Node} (rest : List Node)
    (hq : (access.lengthened n x next).Occurs inner q) :
    firstAccess? rules (inner ++ rest) q = none :=
  firstAccess?_eq_none_iff.mpr fun rule _ _ => not_wants_lengthened rule rest hq

end

end RuleConfig

namespace Node

/-- The fetches of a tree that are to be made longer, in pre-order. -/
def shortFetches (rules : List RuleConfig) (root : Node) : List Node :=
  ((root.places []).filter fun p => (RuleConfig.firstAccess? rules p.1 p.2).isSome).map (·.2)

/-- A node below these nodes with its short fetches made longer; the new nodes of one have the
identities from `fresh` on. -/
def lengthenIn (rules : List RuleConfig) (fresh : Nat → Nat) (around : List Node) (n : Node) :
    Node :=
  match RuleConfig.firstAccess? rules around n with
  | some (access, x) => access.lengthened n x (fresh n.id)
  | none => ⟨n.id, n.span, n.form.attach.map fun ⟨c, _⟩ => c.lengthenIn rules fresh (n :: around)⟩
termination_by sizeOf n
decreasing_by exact sizeOf_lt_of_mem_children ‹_›

/-- Every short fetch of the tree gets two new identities, in the order of the fetches. -/
def freshFor (rules : List RuleConfig) (next : Nat) (root : Node) (id : Nat) : Nat :=
  next + 2 * ((root.shortFetches rules).map (·.id)).idxOf id

/-- The tree with all short fetches made longer. -/
def lengthenAll (rules : List RuleConfig) (next : Nat) (root : Node) : Node :=
  root.lengthenIn rules (root.freshFor rules next) []

section

variable {rules : List RuleConfig} {fresh : Nat → Nat} {root n : Node} {around : List Node}

theorem lengthenIn_eq (rules : List RuleConfig) (fresh : Nat → Nat) (around : List Node)
    (n : Node) :
    n.lengthenIn rules fresh around =
      match RuleConfig.firstAccess? rules around n with
      | some (access, x) => access.lengthened n x (fresh n.id)
      | none => ⟨n.id, n.span, n.form.map (lengthenIn rules fresh (n :: around))⟩ := by
  rw [lengthenIn, Form.attach_map n.form (lengthenIn rules fresh (n :: around))]

/-- Access rules alone open nothing. -/
theorem rewriteIn_fate (h : .trueCondition ∉ rules) (fresh : Nat → Nat) (n : Node) :
    ∀ around, n.rewriteIn (RuleConfig.fate rules fresh) around =
      [n.lengthenIn rules fresh around] := by
  induction n using Node.induction with
  | step n ih =>
    intro around
    have hform : n.form.map (rewriteIn (RuleConfig.fate rules fresh) (n :: around)) =
        n.form.map fun c => [c.lengthenIn rules fresh (n :: around)] :=
      Form.map_congr fun c hc => ih c hc (n :: around)
    rw [rewriteIn_eq, lengthenIn_eq, RuleConfig.fate]
    cases RuleConfig.firstAccess? rules around n with
    | some found => rfl
    | none =>
      dsimp only
      rw [if_neg fun hopens => h hopens.1]
      dsimp only
      rw [hform, Form.join_map_singleton]

theorem mem_shortFetches_iff :
    n ∈ root.shortFetches rules ↔
      ∃ around, Occurs root around n ∧ (RuleConfig.firstAccess? rules around n).isSome = true := by
  rw [shortFetches, List.mem_map]
  constructor
  · rintro ⟨⟨around, p⟩, hp, rfl⟩
    obtain ⟨hmem, hfirst⟩ := List.mem_filter.mp hp
    obtain ⟨above, rfl, hoccurs⟩ := mem_places_iff.mp hmem
    rw [List.append_nil] at hfirst
    exact ⟨above, hoccurs, hfirst⟩
  · rintro ⟨around, hoccurs, hfirst⟩
    refine ⟨(around, n), List.mem_filter.mpr ⟨?_, hfirst⟩, rfl⟩
    refine mem_places_iff.mpr ⟨around, ?_, hoccurs⟩
    rw [List.append_nil]

theorem id_mem_shortFetches_iff (hnodup : root.ids.Nodup) (h : Occurs root around n) :
    n.id ∈ (root.shortFetches rules).map (·.id) ↔
      (RuleConfig.firstAccess? rules around n).isSome = true := by
  rw [List.mem_map]
  constructor
  · rintro ⟨p, hp, hid⟩
    obtain ⟨outer, hoccurs, hfirst⟩ := mem_shortFetches_iff.mp hp
    obtain ⟨rfl, rfl⟩ := hoccurs.unique hnodup h hid
    exact hfirst
  · exact fun hfirst => ⟨n, mem_shortFetches_iff.mpr ⟨around, h, hfirst⟩, rfl⟩

theorem ids_shortFetches_sublist (rules : List RuleConfig) (root : Node) :
    ((root.shortFetches rules).map (·.id)).Sublist root.ids := by
  rw [ids, ← map_snd_places [] root]
  exact (List.filter_sublist.map _).map _

end

/-! ## One of them first -/

namespace GraftSite

variable {rules : List RuleConfig} {fresh : Nat → Nat} {root m n : Node} {above : List Node}
  {access : CanonicalAccess} {x : String} {next : Nat}

/-- The walk comes to the same end if one fetch is made longer before, as long as the conditions
that are always true stay the same. -/
theorem rewrite_lengthened (site : GraftSite root above m n [access.lengthened n x next])
    (hfirst : RuleConfig.firstAccess? rules (m :: above) n = some (access, x))
    (hfresh : fresh n.id = next)
    (hsettled : .trueCondition ∈ rules → ∀ outer p, Occurs root outer p →
      (∀ a ∈ p :: outer, a.id ≠ n.id) →
      (TrueCondition.settledBody? .declared
          (outer.map (grafted n.id [access.lengthened n x next]))
          (p.grafted n.id [access.lengthened n x next])).isSome =
        (TrueCondition.settledBody? .declared outer p).isSome) :
    (root.grafted n.id [access.lengthened n x next]).rewrite (RuleConfig.fate rules fresh) =
      root.rewrite (RuleConfig.fate rules fresh) := by
  obtain ⟨-, hx⟩ := RuleConfig.of_firstAccess?_eq_some hfirst
  refine site.rewrite_grafted (fun outer p hp hne => ?_) ?_
  · exact RuleConfig.fate_congr rfl rfl
      (CanonicalAccess.containerIn?_grafted hx site hp hne)
      fun hrule => hsettled hrule outer p hp hne
  · rw [List.flatMap_singleton, rewriteIn_eq _ (m :: above) n, RuleConfig.fate, hfirst, hfresh]
    refine rewriteIn_of_stays fun inner q hq => ?_
    exact RuleConfig.fate_of_not_wants fun rule _ => RuleConfig.not_wants_lengthened rule _ hq

/-- Once a fetch was made longer it is not among the short ones, and the others are. -/
theorem mem_ids_shortFetches_lengthened (rules : List RuleConfig)
    (site : GraftSite root above m n [access.lengthened n x next])
    (hx : access.containerIn? .declared (m :: above) n = some x) (i : Nat) :
    i ∈ ((root.grafted n.id [access.lengthened n x next]).shortFetches rules).map (·.id) ↔
      i ∈ (root.shortFetches rules).map (·.id) ∧ i ≠ n.id := by
  have hsame : ∀ outer p, Occurs root outer p → (∀ a ∈ p :: outer, a.id ≠ n.id) →
      RuleConfig.firstAccess? rules (outer.map (grafted n.id [access.lengthened n x next]))
        (p.grafted n.id [access.lengthened n x next]) = RuleConfig.firstAccess? rules outer p :=
    fun outer p hp hne =>
      RuleConfig.firstAccess?_congr (CanonicalAccess.containerIn?_grafted hx site hp hne)
  rw [List.mem_map, List.mem_map]
  constructor
  · rintro ⟨q, hq, rfl⟩
    obtain ⟨around, hoccurs, hfirst⟩ := mem_shortFetches_iff.mp hq
    rcases site.occurs_cases hoccurs with
      ⟨outer, p, hp, hne, rfl, rfl⟩ | ⟨y, hy, inner, hinner, rfl⟩
    · rw [hsame outer p hp hne] at hfirst
      exact ⟨⟨p, mem_shortFetches_iff.mpr ⟨outer, hp, hfirst⟩, rfl⟩, hne p List.mem_cons_self⟩
    · rw [List.mem_singleton.mp hy] at hinner
      rw [RuleConfig.firstAccess?_lengthened rules _ hinner] at hfirst
      exact absurd hfirst Bool.false_ne_true
  · rintro ⟨⟨p, hp, rfl⟩, hid⟩
    obtain ⟨outer, hoccurs, hfirst⟩ := mem_shortFetches_iff.mp hp
    have hne : ∀ a ∈ p :: outer, a.id ≠ n.id := by
      intro a ha heq
      rcases List.mem_cons.mp ha with rfl | ha
      · exact hid heq
      · -- Below the fetch there is only its variable.
        obtain ⟨inner, rest, -, han, hbelow⟩ := hoccurs.of_mem_around ha
        obtain ⟨-, rfl⟩ := han.unique site.nodup site.occurs heq
        obtain ⟨object, hlisting, hvar⟩ := CanonicalAccess.preorder_of_containerIn? hx
        have hmem := mem_preorder_iff.mpr ⟨_, hbelow⟩
        rw [hlisting, List.mem_cons, List.mem_singleton] at hmem
        rcases hmem with rfl | rfl
        · exact hid rfl
        · have hfetch := RuleConfig.kind_of_firstAccess?_isSome hfirst
          exact absurd (hvar.symm.trans hfetch) (by decide)
    refine ⟨_, mem_shortFetches_iff.mpr ⟨_, site.occurs_of_apart hoccurs hne, ?_⟩, rfl⟩
    rw [hsame outer p hoccurs hne]
    exact hfirst

/-- The other short fetches keep their order. -/
theorem ids_shortFetches_lengthened (rules : List RuleConfig)
    (site : GraftSite root above m n [access.lengthened n x next])
    (hx : access.containerIn? .declared (m :: above) n = some x)
    (hnodup : (root.grafted n.id [access.lengthened n x next]).ids.Nodup) :
    ((root.grafted n.id [access.lengthened n x next]).shortFetches rules).map (·.id) =
      ((root.shortFetches rules).map (·.id)).filter (· ≠ n.id) := by
  obtain ⟨short, hshort⟩ :
      ∃ l, ((root.grafted n.id [access.lengthened n x next]).shortFetches rules).map (·.id) = l :=
    ⟨_, rfl⟩
  have hmem := mem_ids_shortFetches_lengthened rules site hx
  have hnew := eq_filter_of_sublist (ids_shortFetches_sublist rules _) hnodup
  rw [hshort] at hmem hnew ⊢
  have hold : ((root.shortFetches rules).map (·.id)).filter (· ≠ n.id) =
      root.ids.filter (· ∈ short) := by
    conv_lhs => rw [eq_filter_of_sublist (ids_shortFetches_sublist rules root) site.nodup]
    rw [List.filter_filter]
    refine List.filter_congr fun i _ => ?_
    rw [Bool.eq_iff_iff]
    simp [hmem, and_comm]
  -- Both lists are read off the identities, and these differ only in the place of the fetch.
  have hplace : n.ids.filter (· ∈ short) = [] := by
    obtain ⟨object, hlisting, hvar⟩ := CanonicalAccess.preorder_of_containerIn? hx
    obtain ⟨inner, hobject⟩ := mem_preorder_iff.mp (show object ∈ n.preorder by simp [hlisting])
    rw [List.filter_eq_nil_iff]
    intro i hi hshort
    obtain ⟨hi', hne⟩ := (hmem i).mp (by simpa using hshort)
    rw [ids, hlisting, List.map_cons, List.map_singleton, List.mem_cons, List.mem_singleton] at hi
    rcases hi with rfl | rfl
    · exact hne rfl
    · have hfirst := (id_mem_shortFetches_iff site.nodup (site.occurs.trans hobject)).mp hi'
      exact absurd (hvar.symm.trans (RuleConfig.kind_of_firstAccess?_isSome hfirst)) (by decide)
  have hlonger : ([access.lengthened n x next].flatMap ids).filter (· ∈ short) = [] := by
    rw [List.flatMap_singleton, List.filter_eq_nil_iff]
    intro i hi hin
    obtain ⟨q, hq, rfl⟩ := List.mem_map.mp hi
    obtain ⟨inner, hinner⟩ := mem_preorder_iff.mp hq
    have hoccurs := (site.occurs_of_mem List.mem_cons_self).trans hinner
    rw [← hshort, decide_eq_true_iff, id_mem_shortFetches_iff hnodup hoccurs,
      RuleConfig.firstAccess?_lengthened rules _ hinner] at hin
    exact Bool.false_ne_true hin
  obtain ⟨l, r, hids, hgrafted⟩ := site.exists_ids_eq
  conv_lhs => rw [hnew]
  rw [hold, hids, hgrafted, List.filter_append, List.filter_append, List.filter_append,
    List.filter_append, hplace, hlonger]

end GraftSite

end Node

end PhpRefactor
