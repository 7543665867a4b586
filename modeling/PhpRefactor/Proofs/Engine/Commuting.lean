import PhpRefactor.Proofs.Engine.Accounting
import PhpRefactor.Proofs.Engine.Stability
import PhpRefactor.Proofs.Rule.Together

/-!
# The order of the rules does not matter

The rules of a configuration can be run in parts: first those of one kind until the tree is stable,
then the others.  If no class is one that an access rule looks for, this comes to the same program
in either order, and to the one that all rules together come to, with the same number of edits
(`Config.rules_commute`).

A part of the rules keeps, edit by edit, the program that all rules lead to at once
(`PassState.Settles`), and it wants nothing any more after one pass.  What another part had settled
before it leaves settled.  So in the end no rule wants anything, whatever the order was, and the
program is the one that all rules lead to.  The number of edits is known from the open fetches that
are left.
-/

set_option autoImplicit false

namespace PhpRefactor

namespace RuleConfig

/-- Some rules of a list, among them all access rules or none. -/
structure PartOf (part all : List RuleConfig) : Prop where
  subset : part ⊆ all
  firstAccess?_eq : ∀ {around : List Node} {n : Node} {found : CanonicalAccess × String},
    firstAccess? part around n = some found → firstAccess? all around n = some found

theorem partOf_self (all : List RuleConfig) : PartOf all all := ⟨fun _ h => h, id⟩

theorem partOf_conditions (all : List RuleConfig) :
    PartOf (all.filter (· = .trueCondition)) all where
  subset := List.filter_subset_self _
  firstAccess?_eq {around n found} h := by
    obtain ⟨access, x⟩ := found
    have hmem := (of_firstAccess?_eq_some h).1
    rw [List.mem_filter] at hmem
    exact absurd hmem.2 (by simp)

theorem partOf_accesses (all : List RuleConfig) :
    PartOf (all.filter (· ≠ .trueCondition)) all where
  subset := List.filter_subset_self _
  firstAccess?_eq {around n found} h := by
    rw [← h]
    clear h
    induction all with
    | nil => rfl
    | cons rule rules ih =>
      cases rule with
      | trueCondition => exact ih
      | canonicalAccess access =>
        rw [List.filter_cons_of_pos (by simp)]
        simp only [firstAccess?, List.findSome?_cons] at ih ⊢
        rw [ih]

end RuleConfig

namespace PassState

/-- The program that all rules lead to is the one that they led to in the beginning, and no node
that was visited is wanted by the rules that run; those rules that wanted nothing before want
nothing now. -/
structure Settles (all part : List RuleConfig) (calm : RuleConfig → Prop) (before : Node)
    (s : PassState) (done : List Nat) : Prop where
  classes : s.tree.NoContainerClasses all
  noNaN : before.NoNaN → s.tree.NoNaN
  settle_eq : s.tree.settle all = before.settle all
  calm : s.tree.Calm fun rule i => calm rule ∨ (rule ∈ part ∧ i ∈ done)

theorem Settles.moves {all part : List RuleConfig} {calm : RuleConfig → Prop} {before : Node}
    {s s' : PassState} {done done' : List Nat} {around : List Node} {n : Node}
    {ahead ahead' : List Node} (L : s.Settles all part calm before done)
    (hpart : RuleConfig.PartOf part all) (hnodup : s.tree.ids.Nodup) (hn : s.tree.Occurs around n)
    (hshape : s.tree.StatementShaped)
    (hmove : s.Moves part done around n ahead s' done' ahead') :
    s'.Settles all part calm before done' := by
  cases hmove with
  | keep hnone htree _ _ =>
    refine ⟨htree ▸ L.classes, htree ▸ L.noNaN, htree ▸ L.settle_eq, ?_⟩
    rw [htree]
    refine (L.calm.keep hnodup hn hnone).mono ?_
    intro rule i hrule
    rcases hrule with hcalm | ⟨hmem, hi⟩
    · exact .inl (.inl hcalm)
    · rcases List.mem_append.mp hi with hi | hi
      · exact .inl (.inr ⟨hmem, hi⟩)
      · exact .inr ⟨hmem, List.mem_singleton.mp hi⟩
  | unwrap hrule hbody haround site _ htree _ _ =>
    subst haround
    have hsite := hshape.unwrapSite site hbody
    refine ⟨htree ▸ L.classes.unwrapped hsite, fun h => htree ▸ (L.noNaN h).unwrapped hsite, ?_,
      htree ▸ L.calm.unwrap hsite⟩
    rw [htree, hsite.settle_grafted (hpart.subset hrule) hbody]
    exact L.settle_eq
  | @lengthen access x m outer hrule hx haround site htree _ _ hfirst =>
    subst haround
    have hthis : x ≠ "this" := L.classes.ne_this hn (hpart.subset hrule) hx
    refine ⟨htree ▸ L.classes.lengthened site, fun h => htree ▸ (L.noNaN h).lengthened site,
      ?_, ?_⟩
    · rw [htree, site.settle_lengthened (hpart.firstAccess?_eq hfirst) hthis]
      exact L.settle_eq
    · rw [htree]
      refine Node.Calm.lengthen (fun _ _ _ => .inr hthis) hx site (L.calm.mono ?_)
      intro rule i hrule
      obtain ⟨hcalm | ⟨hmem, hi⟩, hne⟩ := hrule
      · exact .inl hcalm
      · rcases List.mem_append.mp hi with hi | hi
        · exact .inr ⟨hmem, hi⟩
        · exact absurd (List.mem_singleton.mp hi) hne

end PassState

namespace Config

/-- A tree on the way to the program that all rules lead to, where some rules want nothing any
more. -/
structure Settling (all : List RuleConfig) (calm : RuleConfig → Prop) (before : Node)
    (w : Workspace) : Prop extends w.Sound where
  shaped : w.tree.StatementShaped
  classes : w.tree.NoContainerClasses all
  noNaN : before.NoNaN → w.tree.NoNaN
  settle_eq : w.tree.settle all = before.settle all
  calm : w.tree.Calm fun rule _ => calm rule

variable {all : List RuleConfig} {calm : RuleConfig → Prop} {before : Node} {w : Workspace}

/-- After a pass its rules want nothing any more. -/
theorem pass_settles (config : Config) (number : Nat) (hpart : RuleConfig.PartOf config.rules all)
    (h : Settling all calm before w) :
    ∃ w' counts, config.engine.pass number w = (w', .ok counts) ∧
      Settling all (fun rule => calm rule ∨ rule ∈ config.rules) before w' := by
  have hstart : w.begun.Settles all config.rules calm before [] := by
    refine ⟨h.classes, h.noNaN, h.settle_eq, fun around n hn rule hrule => ?_⟩
    exact h.calm around n hn rule (hrule.resolve_right fun hi => List.not_mem_nil hi.2)
  obtain ⟨s, L, hsound, hshaped, hpass⟩ := config.pass_of_shaped number h.toSound h.shaped
    (R := PassState.Settles all config.rules calm before) hstart
    fun s done around n ahead s' done' ahead' S hn hshaped L hmove =>
      L.moves hpart S.nodup hn hshaped hmove
  refine ⟨_, _, hpass, hsound, hshaped, L.classes, L.noNaN, L.settle_eq, ?_⟩
  intro around n hn rule hrule
  exact L.calm around n hn rule (hrule.imp_right fun hmem => ⟨hmem, hn.id_mem⟩)

/-- One pass does all there is to do, and if it does anything a second one finds nothing left. -/
theorem stabilize_settles (config : Config) (hpasses : 2 ≤ config.maxPasses)
    (hpart : RuleConfig.PartOf config.rules all) (h : Settling all calm before w) :
    ∃ w' summary, config.engine.stabilize w = (w', .ok summary) ∧
      summary.edits + w'.tree.openFetches = w.tree.openFetches ∧
      Settling all (fun rule => calm rule ∨ rule ∈ config.rules) before w' := by
  obtain ⟨passes, hmax⟩ : ∃ k, config.engine.maxPasses = k + 2 :=
    ⟨config.maxPasses - 2, by change config.maxPasses = _; omega⟩
  obtain ⟨w₁, counts₁, hpass₁, h₁⟩ := config.pass_settles 1 hpart h
  have hedits₁ : counts₁.edits + w₁.tree.openFetches = w.tree.openFetches := by
    rcases config.pass_accounted 1 h.toSound with
      ⟨w', counts, hpass, -, hcount, -⟩ | ⟨w', e, s, hpass, -⟩
    · obtain ⟨rfl, rfl⟩ : w₁ = w' ∧ counts₁ = counts := by simpa using hpass₁.symm.trans hpass
      exact hcount
    · exact absurd (hpass₁.symm.trans hpass) (by simp)
  have hcalm₁ : w₁.tree.Calm fun rule _ => rule ∈ config.rules := h₁.calm.mono fun _ _ => .inr
  obtain ⟨w₂, counts₂, hpass₂, htree₂, hedits₂, hsound₂⟩ := config.pass_of_calm 2 h₁.toSound hcalm₁
  unfold Engine.stabilize
  rw [hmax, Engine.passesFrom_of_pass hpass₁]
  split
  · refine ⟨w₁, _, rfl, ?_, h₁⟩
    rw [RunSummary.add, RunSummary.zero]
    dsimp only
    omega
  · rw [Engine.passesFrom_of_pass hpass₂, if_pos hedits₂]
    refine ⟨w₂, _, rfl, ?_, hsound₂, htree₂ ▸ h₁.shaped, htree₂ ▸ h₁.classes, htree₂ ▸ h₁.noNaN, ?_,
      htree₂ ▸ h₁.calm⟩
    · rw [htree₂, RunSummary.add, RunSummary.add, RunSummary.zero]
      dsimp only
      omega
    · rw [htree₂]
      exact h₁.settle_eq

/-- Where no rule wants anything the program has been reached. -/
theorem Settling.bare_eq (h : Settling all calm before w) (hcalm : ∀ rule ∈ all, calm rule) :
    before.settle all = [w.tree.bare] := by
  rw [← h.settle_eq]
  exact Node.settle_of_not_wants fun around p hp rule hrule =>
    h.calm around p hp rule (hcalm rule hrule)

/-- The configuration with some of its rules. -/
def only (config : Config) (p : RuleConfig → Bool) : Config :=
  { config with rules := config.rules.filter p }

/-- In a tree of statements where no class is one that an access rule looks for, to unwrap first, to
make fetches longer first, and to do both together comes to trees that differ in identities and
positions only, and takes the same number of edits.  If no literal is a NaN, which differs from
itself, the trees are structurally equal. -/
theorem rules_commute (config : Config) (w : Workspace) (hw : w.Sound)
    (hshape : w.tree.StatementShaped) (hclasses : w.tree.NoContainerClasses config.rules)
    (hpasses : 2 ≤ config.maxPasses) :
    ∃ w₁ w₂ w₃ w₄ w₅ s₁ s₂ s₃ s₄ s₅,
      (config.only (· = .trueCondition)).engine.stabilize w = (w₁, .ok s₁) ∧
      (config.only (· ≠ .trueCondition)).engine.stabilize w₁ = (w₂, .ok s₂) ∧
      (config.only (· ≠ .trueCondition)).engine.stabilize w = (w₃, .ok s₃) ∧
      (config.only (· = .trueCondition)).engine.stabilize w₃ = (w₄, .ok s₄) ∧
      config.engine.stabilize w = (w₅, .ok s₅) ∧
      w₂.tree.bare = w₅.tree.bare ∧ w₄.tree.bare = w₅.tree.bare ∧
      (w.tree.NoNaN → w₂.tree.same w₅.tree = true ∧ w₄.tree.same w₅.tree = true) ∧
      s₁.edits + s₂.edits = s₅.edits ∧ s₃.edits + s₄.edits = s₅.edits := by
  have hstart : Settling config.rules (fun _ => False) w.tree w :=
    ⟨hw, hshape, hclasses, id, rfl, fun _ _ _ _ => False.elim⟩
  have hconditions := RuleConfig.partOf_conditions config.rules
  have haccesses := RuleConfig.partOf_accesses config.rules
  obtain ⟨w₁, s₁, hrun₁, hedits₁, h₁⟩ :=
    (config.only (· = .trueCondition)).stabilize_settles hpasses hconditions hstart
  obtain ⟨w₂, s₂, hrun₂, hedits₂, h₂⟩ :=
    (config.only (· ≠ .trueCondition)).stabilize_settles hpasses haccesses h₁
  obtain ⟨w₃, s₃, hrun₃, hedits₃, h₃⟩ :=
    (config.only (· ≠ .trueCondition)).stabilize_settles hpasses haccesses hstart
  obtain ⟨w₄, s₄, hrun₄, hedits₄, h₄⟩ :=
    (config.only (· = .trueCondition)).stabilize_settles hpasses hconditions h₃
  obtain ⟨w₅, s₅, hrun₅, hedits₅, h₅⟩ :=
    config.stabilize_settles hpasses (RuleConfig.partOf_self config.rules) hstart
  have hbare₂ : w.tree.settle config.rules = [w₂.tree.bare] := by
    refine h₂.bare_eq fun rule hrule => ?_
    by_cases hcondition : rule = .trueCondition
    · exact .inl (.inr (List.mem_filter.mpr ⟨hrule, by simpa using hcondition⟩))
    · exact .inr (List.mem_filter.mpr ⟨hrule, by simpa using hcondition⟩)
  have hbare₄ : w.tree.settle config.rules = [w₄.tree.bare] := by
    refine h₄.bare_eq fun rule hrule => ?_
    by_cases hcondition : rule = .trueCondition
    · exact .inr (List.mem_filter.mpr ⟨hrule, by simpa using hcondition⟩)
    · exact .inl (.inr (List.mem_filter.mpr ⟨hrule, by simpa using hcondition⟩))
  have hbare₅ : w.tree.settle config.rules = [w₅.tree.bare] := h₅.bare_eq fun _ => .inr
  have heq₂ : w₂.tree.bare = w₅.tree.bare := List.singleton_inj.mp (hbare₂.symm.trans hbare₅)
  have heq₄ : w₄.tree.bare = w₅.tree.bare := List.singleton_inj.mp (hbare₄.symm.trans hbare₅)
  have hopen₂ := Node.openFetches_of_bare_eq heq₂
  have hopen₄ := Node.openFetches_of_bare_eq heq₄
  have hsame : w.tree.NoNaN → w₂.tree.same w₅.tree = true ∧ w₄.tree.same w₅.tree = true :=
    fun hnan =>
      ⟨Node.same_of_bare_eq heq₂ (h₂.noNaN hnan), Node.same_of_bare_eq heq₄ (h₄.noNaN hnan)⟩
  exact ⟨w₁, w₂, w₃, w₄, w₅, s₁, s₂, s₃, s₄, s₅, hrun₁, hrun₂, hrun₃, hrun₄, hrun₅, heq₂, heq₄,
    hsame, by omega, by omega⟩

/-- A class whose constructor sets a property to an object, and a method that prints a member of a
container if the property is set. -/
def crate : Workspace where
  tree := ⟨0, .none, .file [⟨1, .none, .classDecl "Crate" none [
    ⟨2, .none, .property .isPrivate false "value" none⟩,
    ⟨3, .none, .method "__construct" .isPublic false [] [
      ⟨4, .none, .exprStmt ⟨5, .none, .assign ⟨6, .none, .fetch ⟨7, .none, .var "this"⟩ "value"⟩
        ⟨8, .none, .newObject "Inner" []⟩⟩⟩]⟩,
    ⟨9, .none, .method "show" .isPublic false [⟨"use", some "Use", none⟩] [
      ⟨10, .none, .ifStmt ⟨11, .none, .fetch ⟨12, .none, .var "this"⟩ "value"⟩ [
        ⟨13, .none, .echo [⟨14, .none, .fetch ⟨15, .none, .var "use"⟩ "var"⟩]⟩] [] none⟩]⟩]⟩]⟩
  next := 16
  stats := []

/-- Both rules, the access rule for the container that is printed. -/
def unpacking : Config where
  rules := [.canonicalAccess ⟨["Use"], "var", "name"⟩, .trueCondition]
  maxPasses := 2

theorem rules_commute_crate :
    crate.Sound ∧ crate.tree.StatementShaped ∧ crate.tree.NoContainerClasses unpacking.rules ∧
    2 ≤ unpacking.maxPasses ∧
    ∃ w₁ w₂ w₃ w₄ w₅ s₁ s₂ s₃ s₄ s₅,
      (unpacking.only (· = .trueCondition)).engine.stabilize crate = (w₁, .ok s₁) ∧
      (unpacking.only (· ≠ .trueCondition)).engine.stabilize w₁ = (w₂, .ok s₂) ∧
      (unpacking.only (· ≠ .trueCondition)).engine.stabilize crate = (w₃, .ok s₃) ∧
      (unpacking.only (· = .trueCondition)).engine.stabilize w₃ = (w₄, .ok s₄) ∧
      unpacking.engine.stabilize crate = (w₅, .ok s₅) ∧
      w₂.tree.bare = w₅.tree.bare ∧ w₄.tree.bare = w₅.tree.bare ∧
      w₂.tree.same w₅.tree = true ∧ w₄.tree.same w₅.tree = true ∧
      s₁.edits + s₂.edits = s₅.edits ∧ s₃.edits + s₄.edits = s₅.edits := by
  have hsound : crate.Sound := Workspace.sound_of_ids_eq_range (by decide +kernel)
  have hshape : crate.tree.StatementShaped := ⟨by decide, by decide +kernel⟩
  have hclasses : crate.tree.NoContainerClasses unpacking.rules := by decide +kernel
  have hnan : crate.tree.NoNaN := by decide +kernel
  obtain ⟨w₁, w₂, w₃, w₄, w₅, s₁, s₂, s₃, s₄, s₅, hrun₁, hrun₂, hrun₃, hrun₄, hrun₅, heq₂, heq₄,
    hsame, hedits⟩ := rules_commute unpacking crate hsound hshape hclasses (Nat.le_refl 2)
  exact ⟨hsound, hshape, hclasses, Nat.le_refl 2, w₁, w₂, w₃, w₄, w₅, s₁, s₂, s₃, s₄, s₅, hrun₁,
    hrun₂, hrun₃, hrun₄, hrun₅, heq₂, heq₄, (hsame hnan).1, (hsame hnan).2, hedits⟩

end Config

end PhpRefactor
