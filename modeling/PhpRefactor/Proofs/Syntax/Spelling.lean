import PhpRefactor.Proofs.Syntax.Pieces

/-!
# The source text in pieces

Every construct writes code of its own around what is written for its children, and a string literal
is written as the quoted string.  So the source text of a tree is laid out in pieces: the literals of
the tree in order, with code between them that does not depend on what they hold
(`Source.spelled`).

A literal is read back from the front of any text that starts with what is written for it.  In the
source text that is the text from its place on, so the literal ends where the next piece begins,
whatever it holds (`Node.literals_survive`).
-/

set_option autoImplicit false

namespace PhpRefactor

namespace Source

/-! ## Lists of nodes -/

/-- A node is written in pieces, on its own and as a part of its parent. -/
structure Spelled (n : Node) : Prop where
  emit : ∀ mode, Spells (fun f => emit mode (n.mapLiterals f)) n.literals
  elseIf : ∀ depth, Spells (fun f => emitElseIfs depth [n.mapLiterals f])
    (if n.kind = .elseIf then n.literals else [])
  elseBranch : ∀ depth, Spells (fun f => emitElse depth (some (n.mapLiterals f)))
    (if n.kind = .elseBranch then n.literals else [])
  catchClause : ∀ depth, Spells (fun f => emitCatches depth [n.mapLiterals f])
    (if n.kind = .catchClause then n.literals else [])

/-- What is written node by node, with something between the nodes, is written in pieces if every
node is. -/
theorem spells_print {ns : List Node} {print : List Node → String}
    {literals : Node → List (Nat × String)} (piece : Bool → Node → String) (hnil : print [] = "")
    (hcons : ∀ n ns, print (n :: ns) = piece ns.isEmpty n ++ print ns)
    (h : ∀ n ∈ ns, ∀ last, Spells (fun f => piece last (n.mapLiterals f)) (literals n)) :
    Spells (fun f => print (ns.map (Node.mapLiterals f))) (ns.flatMap literals) := by
  induction ns with
  | nil => exact (spells_code "").congr fun _ => hnil
  | cons n ns ih =>
    have hfirst := h n List.mem_cons_self ns.isEmpty
    have hrest := ih fun m hm => h m (List.mem_cons_of_mem _ hm)
    refine (hfirst.append hrest).congr fun f => ?_
    rw [List.map_cons, hcons, List.isEmpty_map]

theorem flatMap_ite {α β : Type} (p : α → Bool) (g : α → List β) (as : List α) :
    (as.flatMap fun a => if p a then g a else []) = (as.filter p).flatMap g := by
  induction as with
  | nil => rfl
  | cons a as ih =>
    rw [List.flatMap_cons, ih, List.filter_cons]
    split <;> rfl

section

variable {ns : List Node} (h : ∀ n ∈ ns, Spelled n)

include h

theorem spells_args :
    Spells (fun f => emitArgs (ns.map (Node.mapLiterals f))) (ns.flatMap Node.literals) :=
  spells_print (fun last n => emit none n ++ if last then "" else ", ")
    (by rw [emitArgs]) (fun _ _ => by rw [emitArgs])
    fun n hn last => ((h n hn).emit none).behind (if last then "" else ", ")

theorem spells_inline :
    Spells (fun f => emitInline (ns.map (Node.mapLiterals f))) (ns.flatMap Node.literals) :=
  spells_print (fun last n => emit none n ++ if last then "" else " ")
    (by rw [emitInline]) (fun _ _ => by rw [emitInline])
    fun n hn last => ((h n hn).emit none).behind (if last then "" else " ")

variable (depth : Nat)

theorem spells_block :
    Spells (fun f => emitBlock depth (ns.map (Node.mapLiterals f))) (ns.flatMap Node.literals) :=
  spells_print (fun _ n => emit (some depth) n) (by rw [emitBlock])
    (fun _ _ => by rw [emitBlock]) fun n hn _ => (h n hn).emit _

theorem spells_spaced :
    Spells (fun f => emitSpaced depth (ns.map (Node.mapLiterals f))) (ns.flatMap Node.literals) :=
  spells_print (fun _ n => "\n" ++ emit (some depth) n) (by rw [emitSpaced])
    (fun _ _ => by rw [emitSpaced]) fun n hn _ => ((h n hn).emit _).before _

theorem spells_members :
    Spells (fun f => emitMembers depth (ns.map (Node.mapLiterals f))) (ns.flatMap Node.literals) :=
  spells_print (fun last n => emit (some depth) n ++ if last then "" else "\n")
    (by rw [emitMembers]) (fun _ _ => by rw [emitMembers])
    fun n hn last => ((h n hn).emit (some depth)).behind (if last then "" else "\n")

theorem spells_elseIfs :
    Spells (fun f => emitElseIfs depth (ns.map (Node.mapLiterals f)))
      ((ns.filter (·.kind = .elseIf)).flatMap Node.literals) := by
  rw [← flatMap_ite]
  refine spells_print (fun _ n => emitElseIfs depth [n]) (by rw [emitElseIfs])
    (fun n ns => ?_) fun n hn _ => ?_
  · cases n with
    | mk id span form => cases form <;> simp [emitElseIfs]
  · simpa using (h n hn).elseIf depth

theorem spells_catches :
    Spells (fun f => emitCatches depth (ns.map (Node.mapLiterals f)))
      ((ns.filter (·.kind = .catchClause)).flatMap Node.literals) := by
  rw [← flatMap_ite]
  refine spells_print (fun _ n => emitCatches depth [n]) (by rw [emitCatches])
    (fun n ns => ?_) fun n hn _ => ?_
  · cases n with
    | mk id span form => cases form <;> simp [emitCatches]
  · simpa using (h n hn).catchClause depth

end

theorem spells_else {e : Option Node} (h : ∀ n ∈ e, Spelled n) (depth : Nat) :
    Spells (fun f => emitElse depth (e.map (Node.mapLiterals f)))
      ((e.toList.filter (·.kind = .elseBranch)).flatMap Node.literals) := by
  rw [← flatMap_ite]
  cases e with
  | none => exact (spells_code "").congr fun _ => by rw [Option.map_none, emitElse]; simp
  | some n => simpa using (h n rfl).elseBranch depth

theorem spells_params {ps : List (Param Node)} (h : ∀ p ∈ ps, ∀ n ∈ p.initial, Spelled n) :
    Spells (fun f => emitParams (ps.map (·.map (Node.mapLiterals f))))
      (((ps.map Param.segment).flatMap Segment.toList).flatMap Node.literals) := by
  induction ps with
  | nil => exact (spells_code "").congr fun _ => by rw [List.map_nil, emitParams]
  | cons p ps ih =>
    have hrest := ih fun q hq => h q (List.mem_cons_of_mem _ hq)
    obtain ⟨name, hint, initial⟩ := p
    rw [List.map_cons, List.flatMap_cons, List.flatMap_append]
    cases initial with
    | none =>
      refine (((spells_code (paramText ⟨name, hint, none⟩)).behind
        (if ps.isEmpty then "" else ", ")).append hrest).congr fun f => ?_
      rw [List.map_cons, Param.map, Option.map_none, emitParams, List.isEmpty_map]
    | some d =>
      have hd := (h _ List.mem_cons_self d rfl).emit none
      refine (((hd.before (paramText ⟨name, hint, none⟩ ++ " = ")).behind
        (if ps.isEmpty then "" else ", ")).append hrest).of_eq (by simp [Param.segment, Segment.toList])
        |>.congr fun f => ?_
      rw [List.map_cons, Param.map, Option.map_some, emitParams, List.isEmpty_map]

/-! ## Nodes -/

section

variable {F : (Nat → String → String) → String} {ls : List (Nat × String)}

theorem parenthesize_mapLiterals (f : Nat → String → String) (n : Node) (text : String) :
    parenthesize (n.mapLiterals f) text = parenthesize n text := by
  unfold parenthesize
  rw [Node.mapLiterals_eq]
  cases n.form <;> rfl

theorem Spells.operand (h : Spells F ls) (n : Node) :
    Spells (fun f => parenthesize (n.mapLiterals f) (F f)) ls := by
  simp only [parenthesize_mapLiterals]
  unfold parenthesize
  split
  · exact (h.before _).behind _
  · exact (h.before _).behind _
  · exact h

/-- What is written only if there are nodes is written in pieces. -/
theorem Spells.unlessEmpty {ns : List Node} (h : Spells F (ns.flatMap Node.literals))
    (text : String) :
    Spells (fun f => if (ns.map (Node.mapLiterals f)).isEmpty then text else F f)
      (ns.flatMap Node.literals) := by
  cases ns with
  | nil => exact spells_code text
  | cons n ns => exact h

end

section

variable {id : Nat} {span : Span} {form : Form Node} (h : ∀ c ∈ form.children, Spelled c)

include h

theorem spelled_of_mem_segments (s : Segment Node) (hs : s ∈ form.segments) :
    ∀ c ∈ s.toList, Spelled c :=
  fun c hc => h c (List.mem_flatMap_of_mem hs hc)

theorem spells_node (mode : Option Nat) :
    Spells (fun f => emit mode ((⟨id, span, form⟩ : Node).mapLiterals f))
      (⟨id, span, form⟩ : Node).literals := by
  have hone : ∀ c, .required c ∈ form.segments →
      Spells (fun f => emit none (c.mapLiterals f)) c.literals := fun c hc =>
    (spelled_of_mem_segments h _ hc c List.mem_cons_self).emit none
  have hmany : ∀ ns, .stmts ns ∈ form.segments ∨ .items ns ∈ form.segments →
      ∀ n ∈ ns, Spelled n :=
    fun ns hns => hns.elim (spelled_of_mem_segments h (.stmts ns))
      (spelled_of_mem_segments h (.items ns))
  have hslot : ∀ e, .slot e ∈ form.segments → ∀ c ∈ e, Spelled c :=
    fun e he c hc => spelled_of_mem_segments h _ he c (Option.mem_toList.mpr hc)
  have hparams : ∀ ps : List (Param Node), (∀ s ∈ ps.map Param.segment, s ∈ form.segments) →
      ∀ p ∈ ps, ∀ n ∈ p.initial, Spelled n :=
    fun ps hps p hp => hslot p.initial (hps _ (List.mem_map_of_mem hp))
  have hmap : ∀ f, (⟨id, span, form⟩ : Node).mapLiterals f =
      ⟨id, span, (form.map (Node.mapLiterals f)).mapLiteral (f id)⟩ := fun f =>
    Node.mapLiterals_eq f _
  simp only [hmap, Node.literals_eq ⟨id, span, form⟩]
  cases form
  -- What is written depends on whether these have a child.
  case' property => rename_i d; cases d
  case' returnStmt => rename_i e; cases e
  case' tryBlock => rename_i fin; cases fin
  all_goals simp only [Form.map, Option.map_none, Option.map_some, Form.mapLiteral, emit,
    Node.literal, Node.written, Node.children, Form.children, Form.segments, Segment.toList,
    Option.toList_some, Option.getD_none, Option.getD_some, List.flatMap_append, List.flatMap_cons,
    List.flatMap_nil, List.append_nil, List.nil_append]
  case file ss =>
    exact (spells_spaced (hmany ss (by simp [Form.segments])) _).before _
  case classDecl x parent ms =>
    exact ((spells_members (hmany ms (by simp [Form.segments])) _).before _).braced mode _
  case property.none v isStatic x => exact spells_code _
  case property.some v isStatic x d =>
    have hd := (hslot _ (by simp [Form.segments]) d rfl).emit none
    exact (hd.before _).closed mode _
  case method x v isStatic ps ss | function x ps ss =>
    have hps := spells_params (hparams ps fun s hs => List.mem_append_left _ hs)
    have hss := spells_block (hmany ss (by simp [Form.segments])) (mode.getD 0 + 1)
    exact (((((hps.before _).behind ")").line _).behind _).append hss).braced mode _
  case ifStmt c ss es e =>
    have hc := hone c (by simp [Form.segments])
    have hss := spells_block (hmany ss (by simp [Form.segments])) (mode.getD 0 + 1)
    have hes := spells_elseIfs (hmany es (by simp [Form.segments])) (mode.getD 0)
    have he := spells_else (hslot e (by simp [Form.segments])) (mode.getD 0)
    exact (((((((hc.before "if (").behind ") \x7b").line _).append hss).append hes).append
      he).braced mode _).of_eq (by simp only [List.append_assoc])
  case elseIf c ss | whileLoop c ss =>
    have hc := hone c (by simp [Form.segments])
    have hss := spells_block (hmany ss (by simp [Form.segments])) (mode.getD 0 + 1)
    exact ((((hc.before _).behind _).line _).append hss).braced mode _
  case elseBranch ss =>
    exact ((spells_block (hmany ss (by simp [Form.segments])) _).before _).braced mode _
  case tryBlock.none ss cs =>
    have hss := spells_block (hmany ss (by simp [Form.segments])) (mode.getD 0 + 1)
    have hcs := spells_catches (hmany cs (by simp [Form.segments])) (mode.getD 0)
    exact ((hss.before _).append hcs).braced mode _
  case tryBlock.some ss cs fin =>
    have hss := spells_block (hmany ss (by simp [Form.segments])) (mode.getD 0 + 1)
    have hcs := spells_catches (hmany cs (by simp [Form.segments])) (mode.getD 0)
    have hfin := spells_block (hmany fin (by simp [Form.segments])) (mode.getD 0 + 1)
    exact ((((hss.before _).append hcs).behind _).append hfin).braced mode _
  case catchClause ts v ss =>
    have hv := hone v (by simp [Form.segments])
    have hss := spells_block (hmany ss (by simp [Form.segments])) (mode.getD 0 + 1)
    exact ((((hv.before _).behind _).line _).append hss).braced mode _
  case exprStmt e => exact (hone e (by simp [Form.segments])).closed mode _
  case returnStmt.none => exact spells_code _
  case returnStmt.some e =>
    have he := (hslot _ (by simp [Form.segments]) e rfl).emit none
    exact (he.before _).closed mode _
  case echo es =>
    exact ((spells_args (hmany es (by simp [Form.segments]))).before _).closed mode _
  case fetch o x =>
    exact (((hone o (by simp [Form.segments])).behind "->").behind x).expression mode
  case assign t v =>
    have ht := hone t (by simp [Form.segments])
    have hv := hone v (by simp [Form.segments])
    exact ((ht.behind " = ").append hv).expression mode
  case newObject x args | funcCall x args =>
    have hargs := spells_args (hmany args (by simp [Form.segments]))
    exact ((hargs.before _).behind ")").expression mode
  case methodCall o x args =>
    have ho := hone o (by simp [Form.segments])
    have hargs := spells_args (hmany args (by simp [Form.segments]))
    exact (((((ho.behind "->").behind x).behind "(").append hargs).behind ")").expression mode
  case closure ps us ss =>
    have hps := spells_params (hparams ps fun s hs => List.mem_append_left _ hs)
    have hus := spells_args (hmany us (by simp [Form.segments]))
    have hss := spells_inline (hmany ss (by simp [Form.segments]))
    exact (((((hps.before "function (").behind ")").append
      (((hus.before " use (").behind ")").unlessEmpty "")).append
      (((hss.before " \x7b ").behind " \x7d").unlessEmpty " \x7b\x7d")).expression mode).of_eq
        (by simp only [List.append_assoc])
  case closureUse v byRef => exact ((hone v (by simp [Form.segments])).before _).expression mode
  case binary op l r =>
    have hl := (hone l (by simp [Form.segments])).operand l
    have hr := (hone r (by simp [Form.segments])).operand r
    exact ((((hl.behind " ").behind op.symbol).behind " ").append hr).expression mode
  case negation e =>
    exact (((hone e (by simp [Form.segments])).operand e).before "!").expression mode
  case array es =>
    exact (((spells_args (hmany es (by simp [Form.segments]))).before "[").behind "]").expression
      mode
  case string s => exact (spells_literal id s).expression mode
  all_goals exact spells_code _

theorem spells_elseIf_node (depth : Nat) :
    Spells (fun f => emitElseIfs depth [(⟨id, span, form⟩ : Node).mapLiterals f])
      (if form.kind = .elseIf then (⟨id, span, form⟩ : Node).literals else []) := by
  simp only [Node.mapLiterals_eq _ ⟨id, span, form⟩]
  cases form with
  | elseIf c ss =>
    have hc := (h c List.mem_cons_self).emit none
    have hmem : ∀ n ∈ ss, Spelled n :=
      spelled_of_mem_segments h (.stmts ss) (by simp [Form.segments])
    have hss := spells_block hmem (depth + 1)
    simp only [Form.map, Form.mapLiteral, emitElseIfs]
    exact (((((hc.before _).behind _).line depth).append hss).behind _).of_eq
      (by simp [Node.literals_eq ⟨id, span, _⟩, Node.literal, Node.written, Node.children,
        Form.children, Form.segments, Segment.toList, Form.kind])
  | _ =>
    simp only [Form.map, Form.mapLiteral, emitElseIfs]
    exact spells_code _

theorem spells_else_node (depth : Nat) :
    Spells (fun f => emitElse depth (some ((⟨id, span, form⟩ : Node).mapLiterals f)))
      (if form.kind = .elseBranch then (⟨id, span, form⟩ : Node).literals else []) := by
  simp only [Node.mapLiterals_eq _ ⟨id, span, form⟩]
  cases form with
  | elseBranch ss =>
    have hmem : ∀ n ∈ ss, Spelled n :=
      spelled_of_mem_segments h (.stmts ss) (by simp [Form.segments])
    have hss := spells_block hmem (depth + 1)
    simp only [Form.map, Form.mapLiteral, emitElse]
    exact (hss.before _).of_eq
      (by simp [Node.literals_eq ⟨id, span, _⟩, Node.literal, Node.written, Node.children,
        Form.children, Form.segments, Segment.toList, Form.kind])
  | _ =>
    simp only [Form.map, Form.mapLiteral, emitElse]
    exact spells_code _

theorem spells_catch_node (depth : Nat) :
    Spells (fun f => emitCatches depth [(⟨id, span, form⟩ : Node).mapLiterals f])
      (if form.kind = .catchClause then (⟨id, span, form⟩ : Node).literals else []) := by
  simp only [Node.mapLiterals_eq _ ⟨id, span, form⟩]
  cases form with
  | catchClause ts v ss =>
    have hv := (h v List.mem_cons_self).emit none
    have hmem : ∀ n ∈ ss, Spelled n :=
      spelled_of_mem_segments h (.stmts ss) (by simp [Form.segments])
    have hss := spells_block hmem (depth + 1)
    simp only [Form.map, Form.mapLiteral, emitCatches]
    exact (((((hv.before _).behind _).line depth).append hss).behind _).of_eq
      (by simp [Node.literals_eq ⟨id, span, _⟩, Node.literal, Node.written, Node.children,
        Form.children, Form.segments, Segment.toList, Form.kind])
  | _ =>
    simp only [Form.map, Form.mapLiteral, emitCatches]
    exact spells_code _

end

theorem spelled (n : Node) : Spelled n := by
  induction n using Node.induction with
  | step n ih =>
    cases n with
    | mk id span form =>
      exact ⟨spells_node ih, spells_elseIf_node ih, spells_else_node ih, spells_catch_node ih⟩

end Source

namespace Node

theorem mapLiterals_self (n : Node) : n.mapLiterals (fun _ value => value) = n := by
  induction n using Node.induction with
  | step n ih =>
    have hmap : n.form.map (mapLiterals fun _ value => value) = n.form :=
      (Form.map_congr ih).trans n.form.map_id
    have hself : n.form.mapLiteral (fun value => value) = n.form := by
      cases n.form <;> rfl
    rw [mapLiterals_eq, hmap, hself]
    cases n
    rfl

/-- The source text of the tree is laid out in these pieces, and in the same ones whatever the
literals of the tree hold. -/
structure SpelledBy (root : Node) (pieces : List Source.Piece) : Prop where
  literals_eq : Source.Piece.literals pieces = root.literals
  source_eq : root.source.toList = Source.Piece.layOut (fun _ value => value) pieces
  source_mapLiterals : ∀ f, (root.mapLiterals f).source.toList = Source.Piece.layOut f pieces
  /-- From the place of a literal on, the literal is read, and the pieces behind it are left. -/
  read_literal : ∀ f before id value behind, pieces = before ++ .literal id value :: behind →
    Source.readString ((root.mapLiterals f).source.toList.drop
        (Source.Piece.layOut f before).length) =
      some ((f id value).toList, Source.Piece.layOut f behind)

/-- A string literal is read back from what is written for it, whatever it holds and whatever
follows; in the source text of a tree what follows each literal is code and literals that stand
there whatever the literal holds. -/
theorem literals_survive :
    (∀ (id : Nat) (span : Span) (value : String) (rest : List Char),
      Source.readString ((⟨id, span, .string value⟩ : Node).source.toList ++ rest) =
        some (value.toList, rest)) ∧
    ∀ root : Node, ∃ pieces, root.SpelledBy pieces := by
  constructor
  · intro id span value rest
    have htext : (⟨id, span, .string value⟩ : Node).source = Source.stringText value := by
      rw [source, Source.emit, Source.asExpression]
    rw [htext, Source.readString_stringText]
  · intro root
    obtain ⟨pieces, hliterals, hpieces⟩ := (Source.spelled root).emit none
    have htext : ∀ f, (root.mapLiterals f).source.toList = Source.Piece.layOut f pieces := hpieces
    refine ⟨pieces, hliterals, ?_, htext, ?_⟩
    · rw [← htext, mapLiterals_self]
    · rintro f before id value behind rfl
      rw [htext, Source.Piece.layOut_append, List.drop_left, Source.Piece.layOut_literal,
        Source.readString_stringText]

end Node

end PhpRefactor
