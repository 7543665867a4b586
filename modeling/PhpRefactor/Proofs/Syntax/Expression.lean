import PhpRefactor.Proofs.Syntax.Occurrence
import PhpRefactor.Proofs.Syntax.Reader
import PhpRefactor.Proofs.Syntax.Renumber

/-!
# Expressions are read back

Parentheses stand around operands only.  An object of a fetch or of a method call is written as it
is, so an operation there is taken for something else: a fetch from a sum has the text of a sum with
a fetch.  Where objects are no operations, assignments and negations, every expression is read back
from its text (`Source.readable`), and so it is the only one with that text.

A node is written as an expression, as an operand or as an object, and each case of the induction
shows that it is read back in all three places (`Source.Readable`).
-/

set_option autoImplicit false

namespace PhpRefactor

/-! ## Expressions -/

/-- The text of such an expression begins or ends with that of an operand. -/
def Kind.isOpen : Kind → Bool
  | .binary | .assign | .negation => true
  | _ => false

namespace Form

/-- The construct is an expression that can be read back, as far as it is not a matter of what is
below it: names are names, and what is assigned to is a variable or a property. -/
def isExpression : Form Node → Bool
  | .var x | .fetch _ x | .methodCall _ x _ | .funcCall x _ => Source.isName x.toList
  | .newObject x _ => Source.isClassName x.toList
  | .assign target _ => target.kind = .var || target.kind = .fetch
  | .binary .. | .negation _ | .array _ | .string _ | .int _ | .bool _ | .null => true
  | _ => false

/-- What is fetched from, or called a method of, is closed. -/
def hasClosedObject : Form Node → Bool
  | .fetch o _ | .methodCall o _ _ => !o.kind.isOpen
  | _ => true

end Form

namespace Node

/-- A tree of expressions. -/
def IsExpression (root : Node) : Prop := ∀ n ∈ root.preorder, n.form.isExpression

/-- A tree in which objects are closed. -/
def HasClosedObjects (root : Node) : Prop := ∀ n ∈ root.preorder, n.form.hasClosedObject

instance (root : Node) : Decidable root.IsExpression :=
  inferInstanceAs (Decidable (∀ n ∈ root.preorder, n.form.isExpression))

instance (root : Node) : Decidable root.HasClosedObjects :=
  inferInstanceAs (Decidable (∀ n ∈ root.preorder, n.form.hasClosedObject))

end Node

namespace Source

/-! ## What is written -/

/-- What is written for a node inside a line. -/
def text (n : Node) : List Char := (emit none n).toList

/-- What is written for a node as an operand. -/
def operandText (n : Node) : List Char := (parenthesize n (emit none n)).toList

/-- What is written for nodes with commas between them. -/
def argsText (ns : List Node) : List Char := (emitArgs ns).toList

theorem argsText_nil : argsText [] = [] := by
  rw [argsText, emitArgs]
  rfl

theorem argsText_cons (n : Node) (ns : List Node) :
    argsText (n :: ns) = text n ++ (if ns.isEmpty then [] else [',', ' ']) ++ argsText ns := by
  rw [argsText, emitArgs, String.toList_append, String.toList_append]
  cases ns.isEmpty <;> rfl

/-- What is written for an expression, by what is written for its parts. -/
def expressionText : Form Node → List Char
  | .var x => '$' :: x.toList
  | .fetch o x => text o ++ '-' :: '>' :: x.toList
  | .assign t v => text t ++ ' ' :: '=' :: ' ' :: text v
  | .newObject x args =>
    'n' :: 'e' :: 'w' :: ' ' :: (x.toList ++ '(' :: (argsText args ++ [')']))
  | .methodCall o x args =>
    text o ++ '-' :: '>' :: (x.toList ++ '(' :: (argsText args ++ [')']))
  | .funcCall x args => x.toList ++ '(' :: (argsText args ++ [')'])
  | .binary op l r => operandText l ++ ' ' :: (op.symbol.toList ++ ' ' :: operandText r)
  | .negation e => '!' :: operandText e
  | .array items => '[' :: (argsText items ++ [']'])
  | .string value => '\'' :: (escapeChars value.toList ++ ['\''])
  | .int i => (toString i.toInt).toList
  | .bool b => (toString b).toList
  | .null => ['n', 'u', 'l', 'l']
  | _ => []

theorem text_eq {id : Nat} {span : Span} (form : Form Node) (h : form.isExpression) :
    text ⟨id, span, form⟩ = expressionText form := by
  cases form with
  | var | fetch | assign | newObject | methodCall | funcCall | binary | negation | array | string
  | int | bool | null =>
    simp [expressionText, text, argsText, operandText, emit, asExpression, stringText]
  | _ => exact nomatch h

/-! ## Places of a node -/

/-- A node is read back from what is written for it, wherever it is written. -/
structure Readable (n : Node) : Prop where
  expression : ∀ rest, BehindExpression rest →
    Comes (readExpression · (text n ++ rest)) (n.bare, rest)
  operand : ∀ rest, BehindOperand rest →
    Comes (readOperand · (operandText n ++ rest)) (n.bare, rest)
  /-- Behind an object its links are read on. -/
  object : n.kind.isOpen = false → ∀ rest result, BehindObject rest →
    Comes (readLinks · n.bare rest) result → Comes (readOperand · (text n ++ rest)) result

/-- Nodes that can be read back are read back as arguments. -/
theorem comes_args {ns : List Node} (h : ∀ n ∈ ns, Readable n) {close : Char}
    (hclose : close = ')' ∨ close = ']') (rest : List Char) :
    Comes (readArgs · close (argsText ns ++ close :: rest)) (ns.map Node.bare, rest) := by
  induction ns with
  | nil => exact comes_no_items hclose rest
  | cons n ns ih =>
    obtain ⟨hn, hns⟩ := List.forall_mem_cons.mp h
    cases ns with
    | nil =>
      have htext : argsText [n] ++ close :: rest = text n ++ close :: rest := by
        rw [argsText_cons, argsText_nil]
        simp
      have hbehind : BehindExpression (close :: rest) :=
        goesOn_cons (by rcases hclose with rfl | rfl <;> decide)
      have hlast : ∀ fuel, readBehindItem fuel close (n.bare, close :: rest) =
          some ([n.bare], rest) := by
        intro fuel
        rcases hclose with rfl | rfl <;> rfl
      rw [htext]
      exact comes_items (hn.expression _ hbehind) (.of_eq hlast)
    | cons m ns =>
      have htext : argsText (n :: m :: ns) ++ close :: rest =
          text n ++ ',' :: ' ' :: (argsText (m :: ns) ++ close :: rest) := by
        rw [argsText_cons]
        simp
      have hnext : ∀ fuel behind, readBehindItem fuel close (n.bare, ',' :: ' ' :: behind) =
          readArgs fuel close behind >>= fun r => some (n.bare :: r.1, r.2) := fun _ _ => rfl
      rw [htext]
      refine comes_items (hn.expression _ (goesOn_cons (by decide))) ?_
      exact .congr (fun fuel => hnext fuel _) (.bind (ih hns) (.of_eq fun _ => rfl))

theorem operandText_grouped {n : Node} (hkind : n.kind = .binary ∨ n.kind = .assign) :
    operandText n = '(' :: (text n ++ [')']) := by
  unfold operandText parenthesize text
  split
  · simp
  · simp
  · rename_i hbinary hassign
    cases hform : n.form with
    | binary op l r => exact absurd hform (hbinary op l r)
    | assign t v => exact absurd hform (hassign t v)
    | _ =>
      rw [Node.kind, hform] at hkind
      rcases hkind with hkind | hkind <;> cases hkind

/-- Parentheses stand around operations and assignments. -/
theorem operandText_eq {n : Node} (hbinary : n.kind ≠ .binary) (hassign : n.kind ≠ .assign) :
    operandText n = text n := by
  unfold operandText parenthesize
  split
  · rename_i hform
    exact absurd (congrArg Form.kind hform) hbinary
  · rename_i hform
    exact absurd (congrArg Form.kind hform) hassign
  · rfl

/-- A node that can be an object can be anything. -/
theorem readable_of_object {n : Node} (hopen : n.kind.isOpen = false)
    (h : ∀ rest result, BehindObject rest → Comes (readLinks · n.bare rest) result →
      Comes (readOperand · (text n ++ rest)) result) : Readable n := by
  have hoperand : ∀ rest, BehindOperand rest →
      Comes (readOperand · (text n ++ rest)) (n.bare, rest) := fun rest hrest =>
    h rest _ (hrest.mono (by decide))
      (.step (fun fuel => readLinks_end hrest fuel) (.of_eq fun _ => rfl))
  have hkind : ∀ k : Kind, k.isOpen → n.kind ≠ k := by
    rintro k hk rfl
    exact Bool.false_ne_true (hopen.symm.trans hk)
  refine ⟨fun rest hrest => ?_, fun rest hrest => ?_, fun _ => h⟩
  · exact comes_operand_alone (hoperand rest (hrest.mono (by decide))) hrest
  · rw [operandText_eq (hkind _ rfl) (hkind _ rfl)]
    exact hoperand rest hrest

/-- An operation or assignment is read back as an operand because of its parentheses. -/
theorem readable_of_grouped {n : Node} (hkind : n.kind = .binary ∨ n.kind = .assign)
    (h : ∀ rest, BehindExpression rest → Comes (readExpression · (text n ++ rest)) (n.bare, rest)) :
    Readable n := by
  refine ⟨h, fun rest _ => ?_, fun hopen => ?_⟩
  · have htext : operandText n ++ rest = '(' :: (text n ++ ')' :: rest) := by
      rw [operandText_grouped hkind]
      simp
    have hexpression := h (')' :: rest) (goesOn_cons (by decide))
    rw [htext]
    exact .step (fun fuel => readOperand_group fuel _) (.bind hexpression (.of_eq fun _ => rfl))
  · rcases hkind with hkind | hkind <;> rw [hkind] at hopen <;> exact nomatch hopen

section Forms

variable {id : Nat} {span : Span} {name : String} {args : List Node} {o : Node}

theorem readable_var (hname : isName name.toList) : Readable ⟨id, span, .var name⟩ := by
  refine readable_of_object rfl fun rest result hrest h => ?_
  rw [Node.bare_eq] at h
  rw [text_eq (.var name) hname]
  exact .step (fun fuel => readOperand_variable hname hrest fuel) h

theorem readable_string (value : String) : Readable ⟨id, span, .string value⟩ := by
  refine readable_of_object rfl fun rest result hrest h => ?_
  have htext : text ⟨id, span, .string value⟩ ++ rest =
      '\'' :: (escapeChars value.toList ++ '\'' :: rest) := by
    rw [text_eq _ rfl]
    simp [expressionText]
  rw [Node.bare_eq] at h
  rw [htext]
  exact .step (fun fuel => readOperand_quote value rest fuel) h

theorem readable_int (i : Int64) : Readable ⟨id, span, .int i⟩ := by
  refine readable_of_object rfl fun rest result hrest h => ?_
  rw [Node.bare_eq] at h
  rw [text_eq _ rfl]
  exact .step (fun fuel => readOperand_integer i hrest fuel) h

theorem readable_keyword {word : String} {literal : Form Node} (hname : isName word.toList)
    (hnew : word ≠ "new") (hliteral : keyword? word.toList = some literal)
    (hmap : literal.map Node.bare = literal) (hopen : literal.kind.isOpen = false)
    (htext : text ⟨id, span, literal⟩ = word.toList) : Readable ⟨id, span, literal⟩ := by
  refine readable_of_object hopen fun rest result hrest h => ?_
  rw [Node.bare_eq, hmap] at h
  rw [htext]
  exact .step (fun fuel => readOperand_keyword hname hnew hliteral hrest fuel) h

theorem readable_bool (b : Bool) : Readable ⟨id, span, .bool b⟩ := by
  have htext : text ⟨id, span, .bool b⟩ = (toString b).toList := text_eq _ rfl
  cases b with
  | true => exact readable_keyword (by decide) (by decide) rfl rfl rfl htext
  | false => exact readable_keyword (by decide) (by decide) rfl rfl rfl htext

theorem readable_null : Readable ⟨id, span, .null⟩ := by
  have htext : text ⟨id, span, .null⟩ = "null".toList := text_eq _ rfl
  exact readable_keyword (by decide) (by decide) rfl rfl rfl htext

theorem readable_array {items : List Node} (hitems : ∀ n ∈ items, Readable n) :
    Readable ⟨id, span, .array items⟩ := by
  refine readable_of_object rfl fun rest result hrest h => ?_
  have htext : text ⟨id, span, .array items⟩ ++ rest = '[' :: (argsText items ++ ']' :: rest) := by
    rw [text_eq _ rfl]
    simp [expressionText]
  rw [Node.bare_eq] at h
  rw [htext]
  exact .step (fun fuel => readOperand_items fuel _) (.bind (comes_args hitems (.inr rfl) rest) h)

theorem readable_newObject (hname : isClassName name.toList) (hargs : ∀ n ∈ args, Readable n) :
    Readable ⟨id, span, .newObject name args⟩ := by
  refine readable_of_object rfl fun rest result hrest h => ?_
  have htext : text ⟨id, span, .newObject name args⟩ ++ rest =
      'n' :: 'e' :: 'w' :: ' ' :: (name.toList ++ '(' :: (argsText args ++ ')' :: rest)) := by
    rw [text_eq (.newObject name args) hname]
    simp [expressionText]
  rw [Node.bare_eq] at h
  rw [htext]
  have hargs := comes_args hargs (.inl rfl) rest
  exact .step (fun fuel => readOperand_new hname fuel _) (.bind hargs h)

theorem readable_funcCall (hname : isName name.toList) (hargs : ∀ n ∈ args, Readable n) :
    Readable ⟨id, span, .funcCall name args⟩ := by
  refine readable_of_object rfl fun rest result hrest h => ?_
  have htext : text ⟨id, span, .funcCall name args⟩ ++ rest =
      name.toList ++ '(' :: (argsText args ++ ')' :: rest) := by
    rw [text_eq (.funcCall name args) hname]
    simp [expressionText]
  rw [Node.bare_eq] at h
  rw [htext]
  have hargs := comes_args hargs (.inl rfl) rest
  exact .step (fun fuel => readOperand_call hname fuel _) (.bind hargs h)

theorem readable_fetch (ho : Readable o) (hopen : o.kind.isOpen = false)
    (hname : isName name.toList) : Readable ⟨id, span, .fetch o name⟩ := by
  refine readable_of_object rfl fun rest result hrest h => ?_
  have htext : text ⟨id, span, .fetch o name⟩ ++ rest =
      text o ++ '-' :: '>' :: (name.toList ++ rest) := by
    rw [text_eq (.fetch o name) hname]
    simp [expressionText]
  rw [Node.bare_eq] at h
  rw [htext]
  exact ho.object hopen _ _ (goesOn_cons (by decide))
    (.step (fun fuel => readLinks_fetch hname hrest fuel) h)

theorem readable_methodCall (ho : Readable o) (hopen : o.kind.isOpen = false)
    (hname : isName name.toList) (hargs : ∀ n ∈ args, Readable n) :
    Readable ⟨id, span, .methodCall o name args⟩ := by
  refine readable_of_object rfl fun rest result hrest h => ?_
  have htext : text ⟨id, span, .methodCall o name args⟩ ++ rest =
      text o ++ '-' :: '>' :: (name.toList ++ '(' :: (argsText args ++ ')' :: rest)) := by
    rw [text_eq (.methodCall o name args) hname]
    simp [expressionText]
  rw [Node.bare_eq] at h
  rw [htext]
  exact ho.object hopen _ _ (goesOn_cons (by decide))
    (.step (fun fuel => readLinks_call hname fuel _) (.bind (comes_args hargs (.inl rfl) rest) h))

theorem readable_binary {op : Operator} {l r : Node} (hl : Readable l) (hr : Readable r) :
    Readable ⟨id, span, .binary op l r⟩ := by
  refine readable_of_grouped (.inl rfl) fun rest hrest => ?_
  have htext : text ⟨id, span, .binary op l r⟩ ++ rest =
      operandText l ++ ' ' :: (op.symbol.toList ++ ' ' :: (operandText r ++ rest)) := by
    rw [text_eq _ rfl]
    simp [expressionText]
  rw [Node.bare_eq, htext]
  refine comes_binary (hl.operand _ (goesOn_cons (by decide))) ?_
  exact hr.operand _ (hrest.mono (by decide))

theorem readable_assign {target value : Node} (htarget : Readable target) (hvalue : Readable value)
    (hform : (Form.assign target value).isExpression) :
    Readable ⟨id, span, .assign target value⟩ := by
  have hkind : target.kind = .var ∨ target.kind = .fetch :=
    (Bool.or_eq_true_iff.mp hform).imp of_decide_eq_true of_decide_eq_true
  refine readable_of_grouped (.inr rfl) fun rest hrest => ?_
  have htext : text ⟨id, span, .assign target value⟩ ++ rest =
      operandText target ++ ' ' :: '=' :: ' ' :: (text value ++ rest) := by
    have hoperand : operandText target = text target := by
      rcases hkind with hkind | hkind <;> refine operandText_eq ?_ ?_ <;> rw [hkind] <;> decide
    rw [hoperand, text_eq _ hform]
    simp [expressionText]
  rw [Node.bare_eq, htext]
  exact comes_assign (htarget.operand _ (goesOn_cons (by decide))) (hvalue.expression _ hrest)

theorem readable_negation {e : Node} (he : Readable e) : Readable ⟨id, span, .negation e⟩ := by
  have htext : text ⟨id, span, .negation e⟩ = '!' :: operandText e := text_eq _ rfl
  have hoperand : ∀ rest, BehindOperand rest →
      Comes (readOperand · (text ⟨id, span, .negation e⟩ ++ rest))
        ((⟨id, span, .negation e⟩ : Node).bare, rest) := by
    intro rest hrest
    rw [Node.bare_eq, htext]
    exact .step (fun fuel => readOperand_negation fuel _)
      (.bind (he.operand rest hrest) (.of_eq fun _ => rfl))
  refine ⟨fun rest hrest => ?_, fun rest hrest => ?_, nofun⟩
  · exact comes_operand_alone (hoperand rest (hrest.mono (by decide))) hrest
  · rw [operandText_eq Kind.noConfusion Kind.noConfusion]
    exact hoperand rest hrest

end Forms

/-- An expression with closed objects is read back. -/
theorem readable {n : Node} (hexpression : n.IsExpression) (hobjects : n.HasClosedObjects) :
    Readable n := by
  induction n using Node.induction with
  | step n ih =>
    have hform := hexpression n n.mem_preorder_self
    have hobject := hobjects n n.mem_preorder_self
    have hbelow : ∀ c ∈ n.children, Readable c := fun c hc =>
      ih c hc (fun m hm => hexpression m (Node.preorder_subset_of_mem_children hc hm))
        fun m hm => hobjects m (Node.preorder_subset_of_mem_children hc hm)
    cases n with
    | mk id span form =>
      -- In these constructs a child stands on its own or in a list of items.
      have hone : ∀ c, .required c ∈ form.segments → Readable c := fun c hc =>
        hbelow c (List.mem_flatMap_of_mem hc List.mem_cons_self)
      have hmany : ∀ cs, .items cs ∈ form.segments → ∀ c ∈ cs, Readable c := fun cs hcs c hc =>
        hbelow c (List.mem_flatMap_of_mem hcs hc)
      cases form with
      | var x => exact readable_var hform
      | fetch o x =>
        have hclosed : o.kind.isOpen = false := (Bool.not_eq_true' _).mp hobject
        exact readable_fetch (hone o (by simp [Form.segments])) hclosed hform
      | assign target value =>
        exact readable_assign (hone target (by simp [Form.segments]))
          (hone value (by simp [Form.segments])) hform
      | newObject c args => exact readable_newObject hform (hmany args (by simp [Form.segments]))
      | methodCall o x args =>
        have hclosed : o.kind.isOpen = false := (Bool.not_eq_true' _).mp hobject
        exact readable_methodCall (hone o (by simp [Form.segments])) hclosed hform
          (hmany args (by simp [Form.segments]))
      | funcCall x args => exact readable_funcCall hform (hmany args (by simp [Form.segments]))
      | binary op l r =>
        exact readable_binary (hone l (by simp [Form.segments])) (hone r (by simp [Form.segments]))
      | negation e => exact readable_negation (hone e (by simp [Form.segments]))
      | array items => exact readable_array (hmany items (by simp [Form.segments]))
      | string value => exact readable_string value
      | int i => exact readable_int i
      | bool b => exact readable_bool b
      | null => exact readable_null
      | _ => exact nomatch hform

end Source

namespace Node

/-- No literal of an expression is a NaN: there are no floats. -/
theorem IsExpression.noNaN {root : Node} (h : root.IsExpression) : root.NoNaN := by
  intro n hn
  have hform := h n hn
  rw [isNaN]
  split
  · rename_i d hd
    rw [hd] at hform
    cases hform
  · rfl

/-- Expressions with closed objects are structurally equal if their texts are the same. -/
theorem same_of_source_eq {a b : Node} (ha : a.IsExpression) (hb : b.IsExpression)
    (ha' : a.HasClosedObjects) (hb' : b.HasClosedObjects) (h : a.source = b.source) :
    a.same b = true := by
  have htext : Source.text a = Source.text b := congrArg String.toList h
  have hread := (Source.readable ha ha').expression [] (by simp [Source.GoesOn])
  have hread' := (Source.readable hb hb').expression [] (by simp [Source.GoesOn])
  rw [← htext] at hread'
  exact same_of_bare_eq (congrArg Prod.fst (hread.unique hread')) ha.noNaN

/-- A sum with a fetch as its second operand. -/
def sumWithFetch (id : Nat) : Node :=
  ⟨id, .none, .binary .add ⟨id + 1, .none, .var "a"⟩
    ⟨id + 2, .none, .fetch ⟨id + 3, .none, .var "b"⟩ "c"⟩⟩

/-- A fetch from a sum. -/
def fetchFromSum (id : Nat) : Node :=
  ⟨id, .none, .fetch ⟨id + 1, .none, .binary .add ⟨id + 2, .none, .var "a"⟩
    ⟨id + 3, .none, .var "b"⟩⟩ "c"⟩

theorem same_of_source_eq_sum :
    (sumWithFetch 1).source = (sumWithFetch 5).source ∧ (sumWithFetch 1).same (sumWithFetch 5) :=
  have hsource : (sumWithFetch 1).source = (sumWithFetch 5).source := by decide +kernel
  ⟨hsource, same_of_source_eq (by decide +kernel) (by decide +kernel) (by decide +kernel)
    (by decide +kernel) hsource⟩

/-- A fetch from a sum has the text of a sum with a fetch. -/
theorem source_fetch_sum :
    (fetchFromSum 1).IsExpression ∧ (sumWithFetch 1).IsExpression ∧
      (fetchFromSum 1).source = (sumWithFetch 1).source ∧
      (fetchFromSum 1).same (sumWithFetch 1) = false := by
  decide +kernel

end Node

end PhpRefactor
