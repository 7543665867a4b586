import PhpRefactor.Proofs.Engine.Accounting
import PhpRefactor.Proofs.Engine.Stability
import PhpRefactor.Proofs.Rule.Canonical

/-!
# A pass makes all accesses canonical at once

With access rules alone, a pass edits the tree in place and asks the rules anew at every fetch, and
a longer fetch holds what the rules look for.  What it comes to is still the walk of
`Node.lengthenAll` over the tree as it was before, down to the identities of the new nodes
(`Config.pass_lengthens_all`), and passes after it change nothing.

The state between two visits is `PassState.Lengthens`: the walk leads from here where it led from
the beginning, and the short fetches that are left are the last ones of the beginning.
-/

set_option autoImplicit false

namespace PhpRefactor

namespace PassState

/-- What is still to be made longer leads where what there was to make longer in the beginning
leads, and no node that was visited is wanted any more. -/
structure Lengthens (rules : List RuleConfig) (w : Workspace) (s : PassState) (done : List Nat) :
    Prop where
  rewrite_eq : s.tree.rewrite (RuleConfig.fate rules (w.tree.freshFor rules w.next)) =
    w.tree.rewrite (RuleConfig.fate rules (w.tree.freshFor rules w.next))
  short_eq : ∃ made, (w.tree.shortFetches rules).map (·.id) =
    made ++ (s.tree.shortFetches rules).map (·.id) ∧ made.length = s.edits
  next_eq : s.next = w.next + 2 * s.edits
  calm : s.tree.Calm fun rule i => rule ∈ rules ∧ i ∈ done

namespace Lengthens

variable {rules : List RuleConfig} {w : Workspace} {s s' : PassState} {done done' : List Nat}
  {around : List Node} {n : Node} {ahead ahead' : List Node}

theorem start (rules : List RuleConfig) (w : Workspace) : w.begun.Lengthens rules w [] where
  rewrite_eq := rfl
  short_eq := ⟨[], rfl, rfl⟩
  next_eq := rfl
  calm _ _ _ _ hrule := absurd hrule.2 List.not_mem_nil

/-- A short fetch whose turn it is comes first among those that are left. -/
theorem ids_shortFetches_eq (L : s.Lengthens rules w done) (S : s.Supplied done (n :: ahead))
    (hn : s.tree.Occurs around n) (hfirst : (RuleConfig.firstAccess? rules around n).isSome) :
    ∃ rest, (s.tree.shortFetches rules).map (·.id) = n.id :: rest ∧ n.id ∉ rest := by
  obtain ⟨short, hshort⟩ : ∃ l, (s.tree.shortFetches rules).map (·.id) = l := ⟨_, rfl⟩
  have hsublist := Node.ids_shortFetches_sublist rules s.tree
  have hmem := (Node.id_mem_shortFetches_iff S.nodup hn).mpr hfirst
  have hdone : done.filter (· ∈ short) = [] := by
    rw [List.filter_eq_nil_iff]
    intro i hi hin
    rw [← hshort, decide_eq_true_iff, List.mem_map] at hin
    obtain ⟨p, hp, rfl⟩ := hin
    obtain ⟨outer, hoccurs, hwanted⟩ := Node.mem_shortFetches_iff.mp hp
    have hnone := RuleConfig.firstAccess?_eq_none_iff.mpr fun rule hrule _ =>
      L.calm outer p hoccurs rule ⟨hrule, hi⟩
    rw [hnone] at hwanted
    exact Bool.false_ne_true hwanted
  have heq := eq_filter_of_sublist hsublist S.nodup
  have hnodup := hsublist.nodup S.nodup
  rw [hshort] at heq hmem hnodup ⊢
  rw [S.ids_eq, List.filter_append, hdone, List.nil_append, List.flatMap_cons, Node.ids_eq,
    List.cons_append, List.filter_cons_of_pos (by simpa using hmem)] at heq
  refine ⟨_, heq, ?_⟩
  rw [heq, List.nodup_cons] at hnodup
  exact hnodup.1

/-- The new nodes of a short fetch whose turn it is have the next identities. -/
theorem freshFor_eq (L : s.Lengthens rules w done) (hw : w.Sound) {rest : List Nat}
    (hrest : (s.tree.shortFetches rules).map (·.id) = n.id :: rest) :
    w.tree.freshFor rules w.next n.id = s.next := by
  obtain ⟨made, hmade, hlength⟩ := L.short_eq
  have hnodup := (Node.ids_shortFetches_sublist rules w.tree).nodup hw.nodup
  rw [hrest] at hmade
  rw [hmade, List.nodup_append] at hnodup
  have hnot : n.id ∉ made := fun hmem => hnodup.2.2 n.id hmem n.id List.mem_cons_self rfl
  rw [Node.freshFor, hmade, List.idxOf_append_of_notMem hnot, List.idxOf_cons_self, L.next_eq,
    hlength, Nat.add_zero]

theorem moves (L : s.Lengthens rules w done) (hw : w.Sound) (hrules : .trueCondition ∉ rules)
    (S : s.Supplied done (n :: ahead)) (hn : s.tree.Occurs around n)
    (hmove : s.Moves rules done around n ahead s' done' ahead') : s'.Lengthens rules w done' := by
  cases hmove with
  | keep hnone htree hedits hnext =>
    refine ⟨htree ▸ L.rewrite_eq, ?_, ?_, ?_⟩
    · rw [htree, hedits]
      exact L.short_eq
    · rw [hnext, hedits]
      exact L.next_eq
    · rw [htree]
      refine (L.calm.keep S.nodup hn hnone).mono ?_
      intro rule i hrule
      rcases List.mem_append.mp hrule.2 with hi | hi
      · exact .inl ⟨hrule.1, hi⟩
      · exact .inr ⟨hrule.1, List.mem_singleton.mp hi⟩
  | unwrap hrule => exact absurd hrule hrules
  | @lengthen access x m outer hrule hx haround site htree hedits hnext hfirst =>
    subst haround
    obtain ⟨rest, hrest, hnot⟩ := L.ids_shortFetches_eq S hn (Option.isSome_of_eq_some hfirst)
    have hafter := Node.GraftSite.ids_shortFetches_lengthened rules site hx
      (S.nodup_lengthened site)
    rw [hrest, List.filter_cons_of_neg (by simp), List.filter_eq_self.mpr fun i hi => by
      simpa using fun heq : i = n.id => hnot (heq ▸ hi)] at hafter
    refine ⟨?_, ?_, ?_, ?_⟩
    · rw [htree, site.rewrite_lengthened hfirst (L.freshFor_eq hw hrest) fun hmem =>
        absurd hmem hrules]
      exact L.rewrite_eq
    · obtain ⟨made, hmade, hlength⟩ := L.short_eq
      refine ⟨made ++ [n.id], ?_, ?_⟩
      · rw [hmade, hrest, htree, hafter, List.append_assoc]
        rfl
      · rw [List.length_append, hlength, hedits]
        rfl
    · rw [hnext, hedits, L.next_eq]
      omega
    · rw [htree]
      refine Node.Calm.lengthen (fun rule i hmem => .inl ?_) hx site ?_
      · exact fun heq => hrules (heq ▸ hmem.1)
      refine L.calm.mono ?_
      intro rule i hrule
      obtain ⟨⟨hmem, hi⟩, hne⟩ := hrule
      rcases List.mem_append.mp hi with hi | hi
      · exact ⟨hmem, hi⟩
      · exact absurd (List.mem_singleton.mp hi) hne

end Lengthens

end PassState

namespace Config

variable {config : Config} {w w' : Workspace}

/-- Passes where no rule wants anything change nothing. -/
theorem passes_of_calm (hw : w.Sound) (hcalm : w.tree.Calm fun rule _ => rule ∈ config.rules)
    {edits : Nat} (h : config.engine.Passes w edits w') :
    edits = 0 ∧ w'.tree = w.tree ∧ w'.Sound := by
  induction h with
  | none => exact ⟨rfl, rfl, hw⟩
  | @more edits number w' w'' counts _ hpass ih =>
    obtain ⟨rfl, htree, hsound⟩ := ih
    obtain ⟨after, counts', hagain, htree', hedits, hsound'⟩ :=
      config.pass_of_calm number hsound (htree ▸ hcalm)
    obtain ⟨rfl, rfl⟩ : after = w'' ∧ counts' = counts := by simpa using hagain.symm.trans hpass
    exact ⟨by omega, htree'.trans htree, hsound'⟩

/-- With access rules alone, a pass over any tree makes longer, all at once, the fetches that are
short in it, each by the first rule that wants it; it makes as many edits as there are such fetches,
and no pass after it fails or makes an edit. -/
theorem pass_lengthens_all (config : Config) (hrules : .trueCondition ∉ config.rules)
    (w : Workspace) (hw : w.Sound) (number : Nat) :
    ∃ w' counts, config.engine.pass number w = (w', .ok counts) ∧
      w'.tree = w.tree.lengthenAll config.rules w.next ∧
      counts.edits = (w.tree.shortFetches config.rules).length ∧
      ∀ edits w'', config.engine.Passes w' edits w'' → edits = 0 ∧ w''.tree = w'.tree ∧
        ∀ again, ∃ w₃ counts', config.engine.pass again w'' = (w₃, .ok counts') ∧
          w₃.tree = w'.tree ∧ counts'.edits = 0 := by
  obtain ⟨s, L, hsound, hpass⟩ := config.pass_of_unrefused number hw
    (R := PassState.Lengthens config.rules w) (.start config.rules w)
    (fun s done around n ahead s' done' ahead' S hn L hmove => L.moves hw hrules S hn hmove)
    fun s done around n halt _ _ hrefuses => hrules hrefuses.rule
  have hcalm : s.tree.Calm fun rule _ => rule ∈ config.rules :=
    fun around n hn rule hrule => L.calm around n hn rule ⟨hrule, hn.id_mem⟩
  refine ⟨_, _, hpass, ?_, ?_, ?_⟩
  · have hstays : s.tree.rewrite
        (RuleConfig.fate config.rules (w.tree.freshFor config.rules w.next)) = [s.tree] := by
      refine Node.rewriteIn_of_stays fun inner p hp => RuleConfig.fate_of_not_wants ?_
      rw [List.append_nil]
      exact hcalm inner p hp
    have hwalk := L.rewrite_eq
    rw [hstays, Node.rewrite, Node.rewriteIn_fate hrules] at hwalk
    exact List.singleton_inj.mp hwalk
  · have hnone : s.tree.shortFetches config.rules = [] := by
      rw [List.eq_nil_iff_forall_not_mem]
      intro n hn
      obtain ⟨around, hoccurs, hfirst⟩ := Node.mem_shortFetches_iff.mp hn
      rw [RuleConfig.firstAccess?_eq_none_iff.mpr fun rule hrule _ =>
        hcalm around n hoccurs rule hrule] at hfirst
      exact Bool.false_ne_true hfirst
    obtain ⟨made, hmade, hlength⟩ := L.short_eq
    rw [hnone, List.map_nil, List.append_nil] at hmade
    rw [← List.length_map, hmade, hlength]
  · intro edits w'' hpasses
    obtain ⟨hedits, htree, hsound''⟩ := passes_of_calm hsound hcalm hpasses
    refine ⟨hedits, htree, fun again => ?_⟩
    have hcalm'' : w''.tree.Calm fun rule _ => rule ∈ config.rules := by
      rw [htree]
      exact hcalm
    obtain ⟨w₃, counts', hagain, htree', hedits', -⟩ := config.pass_of_calm again hsound'' hcalm''
    exact ⟨w₃, counts', hagain, htree'.trans htree, hedits'⟩

/-- Two access rules, each of which makes what the other looks for. -/
def chained : Config where
  rules := [.canonicalAccess ⟨["Use"], "var", "name"⟩, .canonicalAccess ⟨["Use"], "name", "var"⟩]
  maxPasses := 2

/-- A function that prints two members of a container, and one of another variable. -/
def printer : Workspace where
  tree := ⟨0, .none, .file [
    ⟨1, .none, .function "show" [⟨"use", some "Use", none⟩] [
      ⟨2, .none, .echo [
        ⟨3, .none, .fetch ⟨4, .none, .var "use"⟩ "name"⟩,
        ⟨5, .none, .fetch ⟨6, .none, .var "other"⟩ "var"⟩,
        ⟨7, .none, .fetch ⟨8, .none, .var "use"⟩ "var"⟩]⟩]⟩]⟩
  next := 9
  stats := []

theorem pass_lengthens_all_printer :
    .trueCondition ∉ chained.rules ∧ printer.Sound ∧
    (printer.tree.lengthenAll chained.rules 9).preorder.map (fun n => (n.id, n.kind)) =
      [(0, .file), (1, .function), (2, .echo), (3, .fetch), (10, .fetch), (9, .var), (5, .fetch),
        (6, .var), (7, .fetch), (12, .fetch), (11, .var)] ∧
    ∃ w' counts, chained.engine.pass 1 printer = (w', .ok counts) ∧
      w'.tree = printer.tree.lengthenAll chained.rules 9 ∧ counts.edits = 2 ∧
      ∀ edits w'', chained.engine.Passes w' edits w'' → edits = 0 ∧ w''.tree = w'.tree := by
  have hrules : .trueCondition ∉ chained.rules := by decide
  have hsound : printer.Sound := Workspace.sound_of_ids_eq_range (by decide +kernel)
  have htwo : (printer.tree.shortFetches chained.rules).length = 2 := by decide +kernel
  obtain ⟨w', counts, hpass, htree, hedits, hlater⟩ :=
    pass_lengthens_all chained hrules printer hsound 1
  refine ⟨hrules, hsound, by decide +kernel, w', counts, hpass, htree, hedits.trans htwo, ?_⟩
  intro edits w'' hpasses
  obtain ⟨hnone, hsame, -⟩ := hlater edits w'' hpasses
  exact ⟨hnone, hsame⟩

end Config

end PhpRefactor
