import PhpRefactor.Syntax.Source
import PhpRefactor.Proofs.Syntax.Renumber

/-!
# Source text has no numbers

The text of a tree is written from constructs and names.  Some nodes are not written on their own
but by their parent, which looks at what is below them: the branches of an `if` and the clauses of a
`try`.  So what is shown of a node by induction is how it is written in all these places
(`Source.SameText`), and the list printers follow from the nodes in their lists.
-/

set_option autoImplicit false

namespace PhpRefactor

namespace Source

/-- A renumbered node is written as the node is, on its own and as a part of its parent. -/
structure SameText (f : Nat → Nat) (n : Node) : Prop where
  emit_eq : ∀ mode, emit mode (n.renumber f) = emit mode n
  elseIf_eq : ∀ depth, emitElseIfs depth [n.renumber f] = emitElseIfs depth [n]
  else_eq : ∀ depth, emitElse depth (some (n.renumber f)) = emitElse depth (some n)
  catch_eq : ∀ depth, emitCatches depth [n.renumber f] = emitCatches depth [n]

section

variable {f : Nat → Nat}

/-! ## Lists of nodes -/

/-- What is written node by node, with something between the nodes, is written as before if every
node is. -/
theorem print_map {ns : List Node} {print : List Node → String} {g : Node → Node}
    (piece : Bool → Node → String)
    (hcons : ∀ n ns, print (n :: ns) = piece ns.isEmpty n ++ print ns)
    (h : ∀ n ∈ ns, ∀ last, piece last (g n) = piece last n) : print (ns.map g) = print ns := by
  induction ns with
  | nil => rfl
  | cons n ns ih =>
    rw [List.map_cons, hcons, hcons, List.isEmpty_map, h n List.mem_cons_self,
      ih fun m hm => h m (List.mem_cons_of_mem _ hm)]

section

variable {ns : List Node} (h : ∀ n ∈ ns, SameText f n)

include h

theorem emitArgs_renumber : emitArgs (ns.map (Node.renumber f)) = emitArgs ns :=
  print_map (fun last n => emit none n ++ if last then "" else ", ") (fun _ _ => by rw [emitArgs])
    fun n hn _ => by rw [(h n hn).emit_eq]

theorem emitInline_renumber : emitInline (ns.map (Node.renumber f)) = emitInline ns :=
  print_map (fun last n => emit none n ++ if last then "" else " ") (fun _ _ => by rw [emitInline])
    fun n hn _ => by rw [(h n hn).emit_eq]

variable (depth : Nat)

theorem emitBlock_renumber : emitBlock depth (ns.map (Node.renumber f)) = emitBlock depth ns :=
  print_map (fun _ n => emit (some depth) n) (fun _ _ => by rw [emitBlock])
    fun n hn _ => (h n hn).emit_eq _

theorem emitSpaced_renumber : emitSpaced depth (ns.map (Node.renumber f)) = emitSpaced depth ns :=
  print_map (fun _ n => "\n" ++ emit (some depth) n) (fun _ _ => by rw [emitSpaced])
    fun n hn _ => by rw [(h n hn).emit_eq]

theorem emitMembers_renumber :
    emitMembers depth (ns.map (Node.renumber f)) = emitMembers depth ns :=
  print_map (fun last n => emit (some depth) n ++ if last then "" else "\n")
    (fun _ _ => by rw [emitMembers]) fun n hn _ => by rw [(h n hn).emit_eq]

theorem emitElseIfs_renumber :
    emitElseIfs depth (ns.map (Node.renumber f)) = emitElseIfs depth ns := by
  refine print_map (fun _ n => emitElseIfs depth [n]) (fun n ns => ?_) fun n hn _ =>
    (h n hn).elseIf_eq depth
  cases n with
  | mk id span form => cases form <;> simp [emitElseIfs]

theorem emitCatches_renumber :
    emitCatches depth (ns.map (Node.renumber f)) = emitCatches depth ns := by
  refine print_map (fun _ n => emitCatches depth [n]) (fun n ns => ?_) fun n hn _ =>
    (h n hn).catch_eq depth
  cases n with
  | mk id span form => cases form <;> simp [emitCatches]

end

theorem emitElse_renumber {n : Option Node} (h : ∀ m ∈ n, SameText f m) (depth : Nat) :
    emitElse depth (n.map (Node.renumber f)) = emitElse depth n := by
  cases n with
  | none => rfl
  | some m => exact (h m rfl).else_eq depth

theorem emitParams_renumber {ps : List (Param Node)}
    (h : ∀ p ∈ ps, ∀ n ∈ p.initial, SameText f n) :
    emitParams (ps.map (·.map (Node.renumber f))) = emitParams ps := by
  induction ps with
  | nil => rfl
  | cons p ps ih =>
    have hrest := ih fun q hq => h q (List.mem_cons_of_mem _ hq)
    obtain ⟨name, hint, initial⟩ := p
    cases initial with
    | none =>
      rw [List.map_cons, Param.map, Option.map_none, emitParams, emitParams, hrest,
        List.isEmpty_map]
    | some d =>
      have hd := h _ List.mem_cons_self d rfl
      rw [List.map_cons, Param.map, Option.map_some, emitParams, emitParams, hrest,
        List.isEmpty_map, hd.emit_eq]

/-! ## Nodes -/

theorem parenthesize_renumber (n : Node) (text : String) :
    parenthesize (n.renumber f) text = parenthesize n text := by
  unfold parenthesize
  rw [Node.form_renumber]
  cases n.form <;> rfl

section

variable {id : Nat} {span : Span} {form : Form Node}
  (h : ∀ c ∈ form.children, SameText f c)

include h

theorem emitElseIfs_node (depth : Nat) :
    emitElseIfs depth [⟨f id, .none, form.map (Node.renumber f)⟩] =
      emitElseIfs depth [⟨id, span, form⟩] := by
  cases form with
  | elseIf c ss =>
    have hc := h c (by simp [Form.children, Form.segments, Segment.toList])
    have hss : ∀ n ∈ ss, SameText f n := fun n hn => h n (by
      simp [Form.children, Form.segments, Segment.toList, hn])
    simp only [Form.map, emitElseIfs, hc.emit_eq, emitBlock_renumber hss]
  | _ => simp only [Form.map, emitElseIfs]

theorem emitElse_node (depth : Nat) :
    emitElse depth (some ⟨f id, .none, form.map (Node.renumber f)⟩) =
      emitElse depth (some ⟨id, span, form⟩) := by
  cases form with
  | elseBranch ss =>
    have hss : ∀ n ∈ ss, SameText f n := fun n hn => h n (by
      simp [Form.children, Form.segments, Segment.toList, hn])
    simp only [Form.map, emitElse, emitBlock_renumber hss]
  | _ => simp only [Form.map, emitElse]

theorem emitCatches_node (depth : Nat) :
    emitCatches depth [⟨f id, .none, form.map (Node.renumber f)⟩] =
      emitCatches depth [⟨id, span, form⟩] := by
  cases form with
  | catchClause ts c ss =>
    have hc := h c (by simp [Form.children, Form.segments, Segment.toList])
    have hss : ∀ n ∈ ss, SameText f n := fun n hn => h n (by
      simp [Form.children, Form.segments, Segment.toList, hn])
    simp only [Form.map, emitCatches, hc.emit_eq, emitBlock_renumber hss]
  | _ => simp only [Form.map, emitCatches]

theorem emit_node (mode : Option Nat) :
    emit mode ⟨f id, .none, form.map (Node.renumber f)⟩ = emit mode ⟨id, span, form⟩ := by
  have hparams : ∀ ps : List (Param Node), (∀ s ∈ ps.map Param.segment, s ∈ form.segments) →
      emitParams (ps.map (·.map (Node.renumber f))) = emitParams ps := by
    refine fun ps hps => emitParams_renumber fun p hp n hn => h n ?_
    exact List.mem_flatMap_of_mem (hps _ (List.mem_map_of_mem hp))
      (by simpa [Param.segment, Segment.toList] using hn)
  have hone : ∀ c, .required c ∈ form.segments → ∀ mode, emit mode (c.renumber f) = emit mode c :=
    fun c hc => (h c (List.mem_flatMap_of_mem hc List.mem_cons_self)).emit_eq
  have hmany : ∀ ns, .stmts ns ∈ form.segments ∨ .items ns ∈ form.segments →
      ∀ n ∈ ns, SameText f n :=
    fun ns hns n hn => h n (hns.elim (List.mem_flatMap_of_mem · hn) (List.mem_flatMap_of_mem · hn))
  have hslot : ∀ e, .slot e ∈ form.segments → ∀ c ∈ e, SameText f c :=
    fun e he c hc => h c (List.mem_flatMap_of_mem he (by simpa [Segment.toList] using hc))
  cases form with
  | file ss =>
    have hss := hmany ss (by simp [Form.segments])
    simp only [Form.map, emit, emitSpaced_renumber hss]
  | classDecl x parent ms =>
    have hms := hmany ms (by simp [Form.segments])
    simp only [Form.map, emit, emitMembers_renumber hms]
  | property v st x d =>
    have hd := hslot d (by simp [Form.segments])
    cases d with
    | none => simp only [Form.map, Option.map_none, emit]
    | some d => simp only [Form.map, Option.map_some, emit, (hd d rfl).emit_eq]
  | method x v st ps ss =>
    have hps := hparams ps fun s hs => List.mem_append_left _ hs
    have hss := hmany ss (by simp [Form.segments])
    simp only [Form.map, emit, hps, emitBlock_renumber hss]
  | function x ps ss =>
    have hps := hparams ps fun s hs => List.mem_append_left _ hs
    have hss := hmany ss (by simp [Form.segments])
    simp only [Form.map, emit, hps, emitBlock_renumber hss]
  | ifStmt c ss es e =>
    have hc := hone c (by simp [Form.segments])
    have hss := hmany ss (by simp [Form.segments])
    have hes := hmany es (by simp [Form.segments])
    have he := hslot e (by simp [Form.segments])
    simp only [Form.map, emit, hc, emitBlock_renumber hss, emitElseIfs_renumber hes,
      emitElse_renumber he]
  | elseIf c ss | whileLoop c ss =>
    have hc := hone c (by simp [Form.segments])
    have hss := hmany ss (by simp [Form.segments])
    simp only [Form.map, emit, hc, emitBlock_renumber hss]
  | elseBranch ss =>
    have hss := hmany ss (by simp [Form.segments])
    simp only [Form.map, emit, emitBlock_renumber hss]
  | tryBlock ss cs fin =>
    have hss := hmany ss (by cases fin <;> simp [Form.segments])
    have hcs := hmany cs (by cases fin <;> simp [Form.segments])
    cases fin with
    | none =>
      simp only [Form.map, Option.map_none, emit, emitBlock_renumber hss, emitCatches_renumber hcs]
    | some fin =>
      have hfin := hmany fin (by simp [Form.segments])
      simp only [Form.map, Option.map_some, emit, emitBlock_renumber hss, emitCatches_renumber hcs,
        emitBlock_renumber hfin]
  | catchClause ts v ss =>
    have hv := hone v (by simp [Form.segments])
    have hss := hmany ss (by simp [Form.segments])
    simp only [Form.map, emit, hv, emitBlock_renumber hss]
  | exprStmt e =>
    simp only [Form.map, emit, hone e (by simp [Form.segments])]
  | returnStmt e =>
    have he := hslot e (by simp [Form.segments])
    cases e with
    | none => simp only [Form.map, Option.map_none, emit]
    | some e => simp only [Form.map, Option.map_some, emit, (he e rfl).emit_eq]
  | echo es | array es =>
    have hes := hmany es (by simp [Form.segments])
    simp only [Form.map, emit, emitArgs_renumber hes]
  | fetch o x | closureUse o x =>
    simp only [Form.map, emit, hone o (by simp [Form.segments])]
  | assign l r =>
    have hl := hone l (by simp [Form.segments])
    have hr := hone r (by simp [Form.segments])
    simp only [Form.map, emit, hl, hr]
  | binary op l r =>
    have hl := hone l (by simp [Form.segments])
    have hr := hone r (by simp [Form.segments])
    simp only [Form.map, emit, hl, hr, parenthesize_renumber]
  | newObject x args | funcCall x args =>
    have hargs := hmany args (by simp [Form.segments])
    simp only [Form.map, emit, emitArgs_renumber hargs]
  | methodCall o x args =>
    have ho := hone o (by simp [Form.segments])
    have hargs := hmany args (by simp [Form.segments])
    simp only [Form.map, emit, ho, emitArgs_renumber hargs]
  | closure ps us ss =>
    have hps := hparams ps fun s hs => List.mem_append_left _ hs
    have hus := hmany us (by simp [Form.segments])
    have hss := hmany ss (by simp [Form.segments])
    simp only [Form.map, emit, hps, List.isEmpty_map, emitArgs_renumber hus,
      emitInline_renumber hss]
  | negation e =>
    simp only [Form.map, emit, hone e (by simp [Form.segments]), parenthesize_renumber]
  | var | string | int | float | bool | null => simp only [Form.map, emit]

end

theorem sameText (f : Nat → Nat) (n : Node) : SameText f n := by
  induction n using Node.induction with
  | step n ih =>
    cases n with
    | mk id span form =>
      refine ⟨?_, ?_, ?_, ?_⟩ <;> rw [Node.renumber_eq]
      · exact emit_node ih
      · exact emitElseIfs_node ih
      · exact emitElse_node ih
      · exact emitCatches_node ih

end

end Source

namespace Node

theorem source_renumber (f : Nat → Nat) (n : Node) : (n.renumber f).source = n.source :=
  (Source.sameText f n).emit_eq none

/-- Trees that are bare the same have the same text. -/
theorem source_eq_of_bare_eq {a b : Node} (h : a.bare = b.bare) : a.source = b.source := by
  rw [← source_renumber (fun _ => 0) a, ← source_renumber (fun _ => 0) b]
  exact congrArg source h

end Node

end PhpRefactor
