import PhpRefactor.Engine.Pass
import Mathlib.Algebra.Ring.Nat
import Mathlib.Data.List.Induction

/-!
# What offers leave in the statistics

Statistics are looked up by name (`Stats.entryOf`); an entry counts how often rules of its name were
asked and how often they asked for an edit.

Rules are asked about a node if they want to see its kind and come no later than the first that asks
for an edit or fails (`Dispatch.asked`).  An offer counts each of them once, and it counts an edit
if there is one.  It brings in no names, and no entry has more edits than invocations.
-/

set_option autoImplicit false

namespace PhpRefactor

namespace Stats

variable {stats : Stats} {name other : String} {f g : RuleStats → RuleStats}

/-- The entry of a name; without one, an entry with nothing counted. -/
def entryOf (stats : Stats) (name : String) : RuleStats :=
  (stats.find? (·.name = name)).getD (.new name)

/-- All edits that are counted. -/
def edits (stats : Stats) : Nat := (stats.map (·.edits)).sum

/-- Under every name the same is counted. -/
def Alike (stats stats' : Stats) : Prop := ∀ name, stats.entryOf name = stats'.entryOf name

/-- No entry has more edits than invocations. -/
def Bounded (stats : Stats) : Prop := ∀ entry ∈ stats, entry.edits ≤ entry.invocations

/-! ## Changing an entry -/

theorem entryOf_change (hf : ∀ entry, (f entry).name = entry.name) (stats : Stats)
    (name other : String) :
    (stats.change name f).entryOf other =
      if name = other then f (stats.entryOf other) else stats.entryOf other := by
  induction stats with
  | nil =>
    by_cases h : name = other
    · simp [change, entryOf, RuleStats.new, hf, h]
    · simp [change, entryOf, RuleStats.new, hf, h]
  | cons entry stats ih =>
    rw [change]
    by_cases hentry : entry.name = name
    · rw [if_pos hentry]
      by_cases h : name = other
      · simp [entryOf, hf, hentry, h]
      · simp [entryOf, hf, hentry, h]
    · rw [if_neg hentry]
      by_cases h : entry.name = other
      · have hne : name ≠ other := fun heq => hentry (h.trans heq.symm)
        simp [entryOf, h, hne]
      · simpa [entryOf, h] using ih

theorem Alike.change {stats' : Stats} (h : stats.Alike stats')
    (hf : ∀ entry, (f entry).name = entry.name) (name : String) :
    (stats.change name f).Alike (stats'.change name f) := by
  intro other
  rw [entryOf_change hf, entryOf_change hf, h other]

theorem names_change (hf : ∀ entry, (f entry).name = entry.name) (stats : Stats) (name : String) :
    (stats.change name f).map (·.name) =
      if name ∈ stats.map (·.name) then stats.map (·.name) else stats.map (·.name) ++ [name] := by
  induction stats with
  | nil => simp [change, hf, RuleStats.new]
  | cons entry stats ih =>
    rw [change]
    by_cases hentry : entry.name = name
    · simp [hentry, hf]
    · rw [if_neg hentry, List.map_cons, ih, List.map_cons]
      have hne : name ≠ entry.name := Ne.symm hentry
      by_cases hmem : name ∈ stats.map (·.name)
      · rw [if_pos hmem, if_pos (List.mem_cons_of_mem _ hmem)]
      · rw [if_neg hmem, if_neg (by simpa [hne] using hmem), List.cons_append]

/-- Two changes of one entry are one. -/
theorem change_change (hf : ∀ entry, (f entry).name = entry.name) (stats : Stats) (name : String) :
    (stats.change name f).change name g = stats.change name (g ∘ f) := by
  induction stats with
  | nil => simp [change, hf, RuleStats.new]
  | cons entry stats ih =>
    rw [change, change]
    by_cases hentry : entry.name = name
    · simp [change, hf, hentry]
    · simp [change, hentry, ih]

theorem edits_change (added : Nat) (hf : ∀ entry, (f entry).edits = entry.edits + added)
    (stats : Stats) (name : String) : (stats.change name f).edits = stats.edits + added := by
  induction stats with
  | nil => simp [change, edits, hf, RuleStats.new]
  | cons entry stats ih =>
    rw [change]
    split
    · simp only [edits, List.map_cons, List.sum_cons, hf]
      omega
    · simp only [edits, List.map_cons, List.sum_cons] at ih ⊢
      omega

theorem Bounded.change (h : stats.Bounded)
    (hf : ∀ entry : RuleStats, entry.edits ≤ entry.invocations →
      (f entry).edits ≤ (f entry).invocations) : (stats.change name f).Bounded := by
  induction stats with
  | nil => simpa [Bounded, Stats.change] using hf (.new name) (Nat.le_refl _)
  | cons entry stats ih =>
    obtain ⟨hentry, hrest⟩ := List.forall_mem_cons.mp h
    rw [Stats.change]
    split
    · exact List.forall_mem_cons.mpr ⟨hf entry hentry, hrest⟩
    · exact List.forall_mem_cons.mpr ⟨hentry, ih hrest⟩

/-! ## Registering, counting, clearing -/

/-- Registering names makes an entry for each, in the order in which they come first. -/
theorem names_register (names : List String) :
    (names.foldl register []).map (·.name) = names.eraseDups := by
  induction names using List.reverseRecOn with
  | nil => rfl
  | append_singleton names name ih =>
    rw [List.foldl_append, List.foldl_cons, List.foldl_nil, register,
      names_change (by intro _; rfl), ih, List.eraseDups_append]
    by_cases hname : name ∈ names
    · simp [hname, List.removeAll]
    · simp [hname, List.removeAll, List.eraseDups_cons]

/-- Where names are registered only, nothing is counted. -/
theorem entryOf_register (names : List String) (name : String) :
    (names.foldl register []).entryOf name = .new name := by
  induction names using List.reverseRecOn with
  | nil => rfl
  | append_singleton names other ih =>
    rw [List.foldl_append, List.foldl_cons, List.foldl_nil, register,
      entryOf_change (by intro _; rfl), ih]
    split <;> rfl

theorem bounded_register (names : List String) : (names.foldl register []).Bounded := by
  induction names using List.reverseRecOn with
  | nil => exact fun entry hentry => absurd hentry List.not_mem_nil
  | append_singleton names name ih =>
    rw [List.foldl_append]
    exact ih.change fun _ => id

theorem names_clear (stats : Stats) : stats.clear.map (·.name) = stats.map (·.name) := by
  rw [clear, List.map_map]
  rfl

theorem bounded_clear (stats : Stats) : stats.clear.Bounded := by
  intro entry hentry
  obtain ⟨old, -, rfl⟩ := List.mem_map.mp hentry
  exact Nat.le_refl _

theorem invocations_invoked (stats : Stats) (name other : String) :
    ((stats.invoked name).entryOf other).invocations =
      (stats.entryOf other).invocations + if name = other then 1 else 0 := by
  rw [invoked, entryOf_change (by intro _; rfl)]
  split <;> rfl

theorem invocations_edited (stats : Stats) (name other : String) :
    ((stats.edited name).entryOf other).invocations = (stats.entryOf other).invocations := by
  rw [edited, entryOf_change (by intro _; rfl)]
  split <;> rfl

theorem edits_invoked (stats : Stats) (name : String) : (stats.invoked name).edits = stats.edits :=
  edits_change 0 (by intro _; rfl) stats name

theorem edits_edited (stats : Stats) (name : String) :
    (stats.edited name).edits = stats.edits + 1 :=
  edits_change 1 (by intro _; rfl) stats name

theorem Alike.invoked {stats' : Stats} (h : stats.Alike stats') (name : String) :
    (stats.invoked name).Alike (stats'.invoked name) :=
  h.change (by intro _; rfl) name

theorem Alike.edited {stats' : Stats} (h : stats.Alike stats') (name : String) :
    (stats.edited name).Alike (stats'.edited name) :=
  h.change (by intro _; rfl) name

theorem Bounded.invoked (h : stats.Bounded) (name : String) : (stats.invoked name).Bounded :=
  h.change fun _ hentry => Nat.le_succ_of_le hentry

/-- A rule that asks for an edit was asked before. -/
theorem Bounded.edited (h : stats.Bounded) (name : String) :
    ((stats.invoked name).edited name).Bounded := by
  rw [Stats.invoked, Stats.edited, change_change (by intro _; rfl)]
  exact h.change fun _ hentry => Nat.succ_le_succ hentry

end Stats

/-- A node with all that the rules see of it when it is offered to them. -/
structure Dispatch where
  site : Site
  node : Node
  /-- The supply of identities. -/
  next : Nat

namespace Dispatch

/-- The offer, given what is counted before. -/
def offer (d : Dispatch) (stats : Stats) (rules : List Rule) : Offer :=
  PhpRefactor.offer d.site d.node stats d.next rules

/-- Every one of the rules that wants to see the node keeps it. -/
def keptBy (d : Dispatch) (rules : List Rule) : Bool :=
  match (d.offer [] rules).answer with
  | .ok .keep => true
  | _ => false

/-- How many edits the rules ask for, one or none. -/
def edits (d : Dispatch) (rules : List Rule) : Nat :=
  match (d.offer [] rules).answer with
  | .ok .keep | .error _ => 0
  | .ok _ => 1

/-- The rules that are asked: each that wants to see the node, if those before it keep the node. -/
def asked (d : Dispatch) (rules : List Rule) : List Rule :=
  (rules.zipIdx.filter fun (rule, i) =>
    rule.appliesTo d.node.kind && d.keptBy (rules.take i)).map Prod.fst

variable {d : Dispatch} {rule : Rule} {rules : List Rule} {stats : Stats} {next : Nat}

/-! ## One rule after another -/

theorem offer_of_not_appliesTo (h : rule.appliesTo d.node.kind = false) :
    d.offer stats (rule :: rules) = d.offer stats rules := by
  unfold offer
  rw [PhpRefactor.offer, h]
  rfl

theorem offer_of_keep (h : rule.appliesTo d.node.kind = true)
    (hkeep : rule.apply d.site d.node d.next = .ok (.keep, next)) :
    d.offer stats (rule :: rules) =
      { d with next }.offer (stats.invoked rule.name) rules := by
  unfold offer
  rw [PhpRefactor.offer, if_pos h, hkeep]

theorem offer_of_edit (h : rule.appliesTo d.node.kind = true) {edit : Edit}
    (hedit : rule.apply d.site d.node d.next = .ok (edit, next)) (hne : edit ≠ .keep) :
    d.offer stats (rule :: rules) =
      ⟨(stats.invoked rule.name).edited rule.name, next, .ok edit⟩ := by
  unfold offer
  rw [PhpRefactor.offer, if_pos h, hedit]
  cases edit with
  | keep => exact absurd rfl hne
  | _ => rfl

theorem offer_of_error (h : rule.appliesTo d.node.kind = true) {e : RunError}
    (herror : rule.apply d.site d.node d.next = .error e) :
    d.offer stats (rule :: rules) = ⟨stats.invoked rule.name, d.next, .error e⟩ := by
  unfold offer
  rw [PhpRefactor.offer, if_pos h, herror]

/-- Each rule in turn does not want to see the node, or keeps it, or is the last that is asked. -/
theorem rule_cases (d : Dispatch) (rule : Rule) :
    rule.appliesTo d.node.kind = false ∨ rule.appliesTo d.node.kind = true ∧
      ((∃ next, rule.apply d.site d.node d.next = .ok (.keep, next)) ∨
        (∃ edit next, rule.apply d.site d.node d.next = .ok (edit, next) ∧ edit ≠ .keep) ∨
        ∃ e, rule.apply d.site d.node d.next = .error e) := by
  cases h : rule.appliesTo d.node.kind with
  | false => exact .inl rfl
  | true =>
    refine .inr ⟨rfl, ?_⟩
    rcases rule.apply d.site d.node d.next with e | ⟨edit, next⟩
    · exact .inr (.inr ⟨e, rfl⟩)
    · by_cases hedit : edit = .keep
      · exact .inl ⟨next, by rw [hedit]⟩
      · exact .inr (.inl ⟨edit, next, rfl, hedit⟩)

/-- What the rules answer has nothing to do with what is counted. -/
theorem answer_offer (d : Dispatch) (stats stats' : Stats) (rules : List Rule) :
    (d.offer stats rules).answer = (d.offer stats' rules).answer ∧
      (d.offer stats rules).next = (d.offer stats' rules).next := by
  induction rules generalizing d stats stats' with
  | nil => exact ⟨rfl, rfl⟩
  | cons rule rules ih =>
    rcases d.rule_cases rule with h | ⟨h, ⟨next, hkeep⟩ | ⟨edit, next, hedit, hne⟩ | ⟨e, herror⟩⟩
    · rw [offer_of_not_appliesTo h, offer_of_not_appliesTo h]
      exact ih d stats stats'
    · rw [offer_of_keep h hkeep, offer_of_keep h hkeep]
      exact ih _ _ _
    · rw [offer_of_edit h hedit hne, offer_of_edit h hedit hne]
      exact ⟨rfl, rfl⟩
    · rw [offer_of_error h herror, offer_of_error h herror]
      exact ⟨rfl, rfl⟩

/-- The first rule is asked if it wants to see the node, and the others as if it stood alone before
them. -/
theorem asked_cons (d : Dispatch) (rule : Rule) (rules : List Rule) :
    d.asked (rule :: rules) = (if rule.appliesTo d.node.kind then [rule] else []) ++
      (rules.zipIdx.filter fun (other, i) =>
        other.appliesTo d.node.kind && d.keptBy (rule :: rules.take i)).map Prod.fst := by
  have hfirst : d.keptBy [] = true := rfl
  rw [asked, List.zipIdx_cons, List.zipIdx_succ, List.filter_cons]
  simp only [List.take_zero, hfirst, Bool.and_true, List.filter_map]
  split <;> simp [Function.comp_def]

theorem asked_of_not_appliesTo (h : rule.appliesTo d.node.kind = false) :
    d.asked (rule :: rules) = d.asked rules := by
  have hrest : ∀ l, d.keptBy (rule :: l) = d.keptBy l := fun l => by
    rw [keptBy, offer_of_not_appliesTo h, keptBy]
  rw [asked_cons, h]
  simp only [hrest]
  rfl

theorem asked_of_keep (h : rule.appliesTo d.node.kind = true)
    (hkeep : rule.apply d.site d.node d.next = .ok (.keep, next)) :
    d.asked (rule :: rules) = rule :: { d with next }.asked rules := by
  have hrest : ∀ l, d.keptBy (rule :: l) = { d with next }.keptBy l := fun l => by
    rw [keptBy, offer_of_keep h hkeep, (answer_offer _ _ [] l).1, keptBy]
  rw [asked_cons, h]
  simp only [hrest]
  rfl

theorem asked_of_not_keep (h : rule.appliesTo d.node.kind = true)
    (hlast : ∀ l, d.keptBy (rule :: l) = false) : d.asked (rule :: rules) = [rule] := by
  rw [asked_cons, h]
  simp [hlast]

/-! ## What an offer counts -/

/-- Each rule that is asked is counted once, under its name. -/
theorem invocations_offer (d : Dispatch) (stats : Stats) (rules : List Rule) (name : String) :
    ((d.offer stats rules).stats.entryOf name).invocations =
      (stats.entryOf name).invocations + (d.asked rules).countP (·.name = name) := by
  induction rules generalizing d stats with
  | nil => rfl
  | cons rule rules ih =>
    rcases d.rule_cases rule with h | ⟨h, ⟨next, hkeep⟩ | ⟨edit, next, hedit, hne⟩ | ⟨e, herror⟩⟩
    · rw [offer_of_not_appliesTo h, asked_of_not_appliesTo h, ih]
    · rw [offer_of_keep h hkeep, asked_of_keep h hkeep, ih, Stats.invocations_invoked,
        List.countP_cons]
      simp only [decide_eq_true_eq]
      omega
    · have hlast : ∀ l, d.keptBy (rule :: l) = false := fun l => by
        rw [keptBy, offer_of_edit h hedit hne]
        cases edit with
        | keep => exact absurd rfl hne
        | _ => rfl
      rw [offer_of_edit h hedit hne, asked_of_not_keep h hlast, Stats.invocations_edited,
        Stats.invocations_invoked, List.countP_singleton]
      simp only [decide_eq_true_eq]
    · have hlast : ∀ l, d.keptBy (rule :: l) = false := fun l => by
        rw [keptBy, offer_of_error h herror]
      rw [offer_of_error h herror, asked_of_not_keep h hlast, Stats.invocations_invoked,
        List.countP_singleton]
      simp only [decide_eq_true_eq]

/-- An edit is counted if there is one. -/
theorem edits_offer (d : Dispatch) (stats : Stats) (rules : List Rule) :
    (d.offer stats rules).stats.edits = stats.edits + d.edits rules := by
  induction rules generalizing d stats with
  | nil => rfl
  | cons rule rules ih =>
    rcases d.rule_cases rule with h | ⟨h, ⟨next, hkeep⟩ | ⟨edit, next, hedit, hne⟩ | ⟨e, herror⟩⟩
    · rw [offer_of_not_appliesTo h, ih, edits, edits, offer_of_not_appliesTo h]
    · rw [offer_of_keep h hkeep, ih, Stats.edits_invoked, edits, edits, offer_of_keep h hkeep,
        (answer_offer _ [] (Stats.invoked [] rule.name) rules).1]
    · rw [offer_of_edit h hedit hne, edits, offer_of_edit h hedit hne, Stats.edits_edited,
        Stats.edits_invoked]
      cases edit with
      | keep => exact absurd rfl hne
      | _ => rfl
    · rw [offer_of_error h herror, edits, offer_of_error h herror, Stats.edits_invoked]
      rfl

/-- What counting a rule keeps, and counting it with an edit, an offer keeps. -/
theorem offer_keeps {P : Stats → Prop}
    (hinvoked : ∀ rule ∈ rules, ∀ stats, P stats → P (stats.invoked rule.name))
    (hedited : ∀ rule ∈ rules, ∀ stats, P stats → P ((stats.invoked rule.name).edited rule.name))
    (d : Dispatch) (hstats : P stats) : P (d.offer stats rules).stats := by
  induction rules generalizing d stats with
  | nil => exact hstats
  | cons rule rules ih =>
    have hrest : ∀ (d : Dispatch) (counted : Stats), P counted → P (d.offer counted rules).stats :=
      fun d _ hcounted => ih (fun r hr => hinvoked r (List.mem_cons_of_mem _ hr))
        (fun r hr => hedited r (List.mem_cons_of_mem _ hr)) d hcounted
    have hrule := hinvoked rule List.mem_cons_self stats hstats
    rcases d.rule_cases rule with h | ⟨h, ⟨next, hkeep⟩ | ⟨edit, next, hedit, hne⟩ | ⟨e, herror⟩⟩
    · rw [offer_of_not_appliesTo h]
      exact hrest d stats hstats
    · rw [offer_of_keep h hkeep]
      exact hrest _ _ hrule
    · rw [offer_of_edit h hedit hne]
      exact hedited rule List.mem_cons_self stats hstats
    · rw [offer_of_error h herror]
      exact hrule

theorem bounded_offer (d : Dispatch) (rules : List Rule) (h : stats.Bounded) :
    (d.offer stats rules).stats.Bounded :=
  d.offer_keeps (P := Stats.Bounded) (fun rule _ _ h => h.invoked rule.name)
    (fun rule _ _ h => h.edited rule.name) h

/-- Where every rule has an entry an offer brings in no names. -/
theorem names_offer (d : Dispatch) (h : ∀ rule ∈ rules, rule.name ∈ stats.map (·.name)) :
    (d.offer stats rules).stats.map (·.name) = stats.map (·.name) := by
  have hchange : ∀ rule ∈ rules, ∀ (counted : Stats) (f : RuleStats → RuleStats),
      (∀ entry, (f entry).name = entry.name) → counted.map (·.name) = stats.map (·.name) →
      (counted.change rule.name f).map (·.name) = stats.map (·.name) := by
    intro rule hrule counted f hf hnames
    rw [Stats.names_change hf, hnames, if_pos (h rule hrule)]
  refine d.offer_keeps (P := fun counted => counted.map (·.name) = stats.map (·.name))
    (fun rule hrule counted hnames => ?_) (fun rule hrule counted hnames => ?_) rfl
  · exact hchange rule hrule counted _ (fun _ => rfl) hnames
  · exact hchange rule hrule _ _ (fun _ => rfl)
      (hchange rule hrule counted _ (fun _ => rfl) hnames)

end Dispatch

end PhpRefactor
