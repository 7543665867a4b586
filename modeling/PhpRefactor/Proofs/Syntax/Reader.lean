import PhpRefactor.Proofs.Syntax.Literal
import PhpRefactor.Syntax.Build
import PhpRefactor.Syntax.Walk

/-!
# A reader of expressions

The reader goes from left to right over the text of an expression.  An operand is told by its first
character.  The links behind it, its fetches and method calls, are read one after the other onto
what was read before them (`Source.readLinks`), so that it does not matter how far a chain of them
goes.

Readers go down into brackets and take fuel for it.  A reader comes to a result if it has that
result with any fuel that is enough (`Source.Comes`); the rules below say what a reader comes to on
a text that starts with what is written for a construct.
-/

set_option autoImplicit false

namespace PhpRefactor

/-! ## A reader -/

namespace Source

open Node (ofForm)

/-- What an operand starts with. -/
inductive Opening where
  | negation
  | group
  | variable
  | quote
  | items
  | integer
  | word

/-- What a character is the start of. -/
def opening (c : Char) : Opening :=
  if c = '!' then .negation
  else if c = '(' then .group
  else if c = '$' then .variable
  else if c = '\'' then .quote
  else if c = '[' then .items
  else if c = '-' ∨ c.isDigit then .integer
  else .word

/-- A word that is a literal. -/
def keyword? (word : List Char) : Option (Form Node) :=
  if word = "true".toList then some (.bool true)
  else if word = "false".toList then some (.bool false)
  else if word = "null".toList then some .null
  else none

/-- Takes one character off a text. -/
def expect (wanted : Char) : List Char → Option (List Char)
  | [] => none
  | c :: rest => if c = wanted then some rest else none

mutual

/-- An expression at the front of a text. -/
def readExpression : Nat → List Char → Option (Node × List Char)
  | 0, _ => none
  | fuel + 1, cs => do
    let (left, rest) ← readOperand fuel cs
    match rest with
    | ' ' :: rest =>
      let (symbol, rest) := readWhile (· ≠ ' ') rest
      let rest ← expect ' ' rest
      if symbol = ['='] then
        let (value, rest) ← readExpression fuel rest
        return (ofForm (.assign left value), rest)
      else
        let op ← Operator.all.find? fun op => op.symbol.toList = symbol
        let (right, rest) ← readOperand fuel rest
        return (ofForm (.binary op left right), rest)
    | rest => return (left, rest)

/-- An operand at the front of a text. -/
def readOperand : Nat → List Char → Option (Node × List Char)
  | 0, _ => none
  | _ + 1, [] => none
  | fuel + 1, c :: cs =>
    match opening c with
    | .negation => do
      let (operand, rest) ← readOperand fuel cs
      return (ofForm (.negation operand), rest)
    | .group => do
      let (e, rest) ← readExpression fuel cs
      return (e, ← expect ')' rest)
    | .variable =>
      let (name, rest) := readWhile isNameChar cs
      readLinks fuel (ofForm (.var (String.ofList name))) rest
    | .quote => do
      let (value, rest) ← readQuoted cs
      readLinks fuel (ofForm (.string (String.ofList value))) rest
    | .items => do
      let (items, rest) ← readArgs fuel ']' cs
      readLinks fuel (ofForm (.array items)) rest
    | .integer =>
      let (i, rest) := readInt (c :: cs)
      readLinks fuel (ofForm (.int i)) rest
    | .word => do
      let (word, rest) := readWhile isNameChar (c :: cs)
      match rest with
      | '(' :: rest =>
        let (args, rest) ← readArgs fuel ')' rest
        readLinks fuel (ofForm (.funcCall (String.ofList word) args)) rest
      | rest =>
        if word = "new".toList then
          let rest ← expect ' ' rest
          let (name, rest) := readWhile isClassNameChar rest
          let rest ← expect '(' rest
          let (args, rest) ← readArgs fuel ')' rest
          readLinks fuel (ofForm (.newObject (String.ofList name) args)) rest
        else
          let literal ← keyword? word
          readLinks fuel (ofForm literal) rest

/-- The links behind an object. -/
def readLinks : Nat → Node → List Char → Option (Node × List Char)
  | 0, _, _ => none
  | fuel + 1, object, '-' :: '>' :: cs => do
    let (name, rest) := readWhile isNameChar cs
    match rest with
    | '(' :: rest =>
      let (args, rest) ← readArgs fuel ')' rest
      readLinks fuel (ofForm (.methodCall object (String.ofList name) args)) rest
    | rest => readLinks fuel (ofForm (.fetch object (String.ofList name))) rest
  | _ + 1, object, rest => some (object, rest)

/-- Expressions with commas between them, and the bracket behind them. -/
def readArgs : Nat → Char → List Char → Option (List Node × List Char)
  | 0, _, _ => none
  | fuel + 1, close, cs =>
    match readExpression fuel cs with
    | none => do return ([], ← expect close cs)
    | some (e, ',' :: ' ' :: rest) => do
      let (es, rest) ← readArgs fuel close rest
      return (e :: es, rest)
    | some (e, rest) => do return ([e], ← expect close rest)

end

/-! ## What a reader comes to -/

/-- With fuel enough the reader comes to this result. -/
def Comes {α : Type} (read : Nat → Option α) (x : α) : Prop :=
  ∃ least, ∀ fuel, least ≤ fuel → read fuel = some x

section Comes

variable {α β : Type} {read read' : Nat → Option α} {x : α} {y : β}

theorem Comes.of_eq (h : ∀ fuel, read fuel = some x) : Comes read x := ⟨0, fun fuel _ => h fuel⟩

theorem Comes.congr (hread : ∀ fuel, read fuel = read' fuel) (h : Comes read' x) :
    Comes read x := by
  rwa [funext hread]

/-- One unit of fuel is used up. -/
theorem Comes.step (hread : ∀ fuel, read (fuel + 1) = read' fuel) (h : Comes read' x) :
    Comes read x := by
  obtain ⟨least, h⟩ := h
  refine ⟨least + 1, fun fuel hfuel => ?_⟩
  obtain ⟨fuel, rfl⟩ := Nat.exists_eq_add_one_of_ne_zero (Nat.ne_zero_of_lt hfuel)
  rw [hread, h fuel (Nat.le_of_succ_le_succ hfuel)]

/-- A result is passed on. -/
theorem Comes.bind {next : Nat → α → Option β} (h : Comes read x)
    (hnext : Comes (fun fuel => next fuel x) y) :
    Comes (fun fuel => read fuel >>= next fuel) y := by
  obtain ⟨least, h⟩ := h
  obtain ⟨least', hnext⟩ := hnext
  refine ⟨max least least', fun fuel hfuel => ?_⟩
  dsimp only
  rw [h fuel (Nat.le_trans (Nat.le_max_left _ _) hfuel)]
  exact hnext fuel (Nat.le_trans (Nat.le_max_right _ _) hfuel)

theorem Comes.unique {x' : α} (h : Comes read x) (h' : Comes read x') : x = x' := by
  obtain ⟨least, h⟩ := h
  obtain ⟨least', h'⟩ := h'
  exact Option.some.inj ((h _ (Nat.le_max_left least least')).symm.trans
    (h' _ (Nat.le_max_right least least')))

end Comes

/-! ## What may stand behind what was read -/

/-- The text ends, or goes on with one of these characters. -/
def GoesOn (allowed : List Char) (rest : List Char) : Prop := ∀ c ∈ rest.head?, c ∈ allowed

/-- Behind an expression. -/
abbrev BehindExpression : List Char → Prop := GoesOn [')', ']', ',']

/-- Behind an operand: an operator may follow. -/
abbrev BehindOperand : List Char → Prop := GoesOn [')', ']', ',', ' ']

/-- Behind an object: a link may follow. -/
abbrev BehindObject : List Char → Prop := GoesOn [')', ']', ',', ' ', '-']

theorem GoesOn.mono {allowed allowed' rest : List Char} (h : GoesOn allowed rest)
    (hsub : allowed ⊆ allowed') : GoesOn allowed' rest :=
  fun c hc => hsub (h c hc)

theorem goesOn_cons {allowed rest : List Char} {c : Char} (h : c ∈ allowed) :
    GoesOn allowed (c :: rest) := by
  rintro d hd
  rwa [← Option.some.inj hd]

/-- A test fails on what follows if it fails on everything that may follow. -/
theorem GoesOn.test_eq_false {allowed rest : List Char} (h : GoesOn allowed rest)
    {test : Char → Bool} (htest : allowed.any test = false) : ∀ c ∈ rest.head?, test c = false :=
  fun c hc => Bool.eq_false_iff.mpr (List.any_eq_false.mp htest c (h c hc))

/-! ## Steps of the reader -/

section Steps

variable {cs rest : List Char} {object : Node} {name : String}

theorem readWhile_name (hname : isName name.toList) (hrest : BehindObject rest) :
    readWhile isNameChar (name.toList ++ rest) = (name.toList, rest) :=
  readWhile_append (isNameChar_of_mem hname) (hrest.test_eq_false rfl)

theorem readWhile_name_call (hname : isName name.toList) (cs : List Char) :
    readWhile isNameChar (name.toList ++ '(' :: cs) = (name.toList, '(' :: cs) :=
  readWhile_append (isNameChar_of_mem hname) fun c hc => by
    rw [← Option.some.inj hc]
    decide

theorem readOperand_negation (fuel : Nat) (cs : List Char) :
    readOperand (fuel + 1) ('!' :: cs) =
      readOperand fuel cs >>= fun r => some (ofForm (.negation r.1), r.2) := rfl

theorem readOperand_group (fuel : Nat) (cs : List Char) :
    readOperand (fuel + 1) ('(' :: cs) =
      readExpression fuel cs >>= fun r => expect ')' r.2 >>= fun rest => some (r.1, rest) := rfl

theorem readOperand_variable (hname : isName name.toList) (hrest : BehindObject rest) (fuel : Nat) :
    readOperand (fuel + 1) ('$' :: (name.toList ++ rest)) =
      readLinks fuel (ofForm (.var name)) rest := by
  change readLinks fuel (ofForm (.var (String.ofList (readWhile _ _).1))) (readWhile _ _).2 = _
  rw [readWhile_name hname hrest, String.ofList_toList]

theorem readOperand_quote (value : String) (rest : List Char) (fuel : Nat) :
    readOperand (fuel + 1) ('\'' :: (escapeChars value.toList ++ '\'' :: rest)) =
      readLinks fuel (ofForm (.string value)) rest := by
  change (readQuoted _ >>= fun r => readLinks fuel (ofForm (.string (String.ofList r.1))) r.2) = _
  rw [readQuoted_escapeChars]
  change readLinks fuel (ofForm (.string (String.ofList value.toList))) rest = _
  rw [String.ofList_toList]

theorem readOperand_items (fuel : Nat) (cs : List Char) :
    readOperand (fuel + 1) ('[' :: cs) =
      readArgs fuel ']' cs >>= fun r => readLinks fuel (ofForm (.array r.1)) r.2 := rfl

theorem opening_of_isDigit {c : Char} (h : c.isDigit) : opening c = .integer := by
  have hne : ∀ d : Char, d.isDigit = false → c ≠ d := by
    rintro d hd rfl
    exact Bool.false_ne_true (hd.symm.trans h)
  rw [opening, if_neg (hne _ rfl), if_neg (hne _ rfl), if_neg (hne _ rfl), if_neg (hne _ rfl),
    if_neg (hne _ rfl), if_pos (.inr h)]

theorem opening_of_isNameStart {c : Char} (h : isNameStart c) : opening c = .word := by
  have hne : ∀ d : Char, isNameStart d = false → c ≠ d := by
    rintro d hd rfl
    exact Bool.false_ne_true (hd.symm.trans h)
  have hdigit : ¬ (c = '-' ∨ c.isDigit) := by
    rintro (rfl | hdigit)
    · exact absurd h (by decide)
    · exact Bool.false_ne_true ((isNameStart_of_isDigit hdigit).symm.trans h)
  rw [opening, if_neg (hne _ rfl), if_neg (hne _ rfl), if_neg (hne _ rfl), if_neg (hne _ rfl),
    if_neg (hne _ rfl), if_neg hdigit]

theorem exists_toString (n : Int) :
    ∃ c cs, (toString n).toList = c :: cs ∧ opening c = .integer := by
  rw [Int.toString_eq_repr, Int.repr_eq_if]
  split
  · rw [Nat.toList_repr]
    obtain ⟨c, cs, hcs⟩ := List.exists_cons_of_ne_nil (Nat.toDigits_ne_nil (b := 10) (n := n.toNat))
    refine ⟨c, cs, hcs, opening_of_isDigit ?_⟩
    exact Nat.isDigit_of_mem_toDigits (by decide) (by decide) (hcs ▸ List.mem_cons_self)
  · exact ⟨'-', _, String.toList_append, rfl⟩

theorem readOperand_integer (i : Int64) (hrest : BehindObject rest) (fuel : Nat) :
    readOperand (fuel + 1) ((toString i.toInt).toList ++ rest) =
      readLinks fuel (ofForm (.int i)) rest := by
  have hread := readInt_append i (hrest.test_eq_false rfl)
  obtain ⟨c, cs, hcs, hc⟩ := exists_toString i.toInt
  rw [hcs, List.cons_append] at hread ⊢
  rw [readOperand, hc]
  dsimp only
  rw [hread]

theorem readOperand_call (hname : isName name.toList) (fuel : Nat) (cs : List Char) :
    readOperand (fuel + 1) (name.toList ++ '(' :: cs) =
      readArgs fuel ')' cs >>= fun r => readLinks fuel (ofForm (.funcCall name r.1)) r.2 := by
  have hread := readWhile_name_call hname cs
  obtain ⟨c, ds, hds, hc⟩ := exists_of_isName hname
  rw [hds, List.cons_append] at hread ⊢
  rw [readOperand, opening_of_isNameStart hc]
  dsimp only
  rw [hread]
  dsimp only
  rw [← hds, String.ofList_toList]
  rfl

theorem readOperand_new (hname : isClassName name.toList) (fuel : Nat) (cs : List Char) :
    readOperand (fuel + 1) ('n' :: 'e' :: 'w' :: ' ' :: (name.toList ++ '(' :: cs)) =
      readArgs fuel ')' cs >>= fun r => readLinks fuel (ofForm (.newObject name r.1)) r.2 := by
  have hread : readWhile isClassNameChar (name.toList ++ '(' :: cs) = (name.toList, '(' :: cs) :=
    readWhile_append (isClassNameChar_of_mem hname) fun c hc => by
      rw [← Option.some.inj hc]
      decide
  change (let (name, rest) := readWhile isClassNameChar (name.toList ++ '(' :: cs)
    expect '(' rest >>= fun rest => readArgs fuel ')' rest >>= fun r =>
      readLinks fuel (ofForm (.newObject (String.ofList name) r.1)) r.2) = _
  rw [hread]
  change (readArgs fuel ')' cs >>= fun r =>
    readLinks fuel (ofForm (.newObject (String.ofList name.toList) r.1)) r.2) = _
  rw [String.ofList_toList]

theorem readOperand_keyword {word : String} {literal : Form Node} (hname : isName word.toList)
    (hnew : word ≠ "new") (hliteral : keyword? word.toList = some literal)
    (hrest : BehindObject rest) (fuel : Nat) :
    readOperand (fuel + 1) (word.toList ++ rest) = readLinks fuel (ofForm literal) rest := by
  have hread := readWhile_name hname hrest
  obtain ⟨c, ds, hds, hc⟩ := exists_of_isName hname
  rw [hds, List.cons_append] at hread ⊢
  rw [readOperand, opening_of_isNameStart hc]
  dsimp only
  rw [hread]
  dsimp only
  split
  · exact absurd (hrest '(' rfl) (by decide)
  · rw [← hds, if_neg (fun h => hnew (String.toList_injective h)), hliteral]
    rfl

/-! ### Links -/

theorem readLinks_fetch (hname : isName name.toList) (hrest : BehindObject rest) (fuel : Nat) :
    readLinks (fuel + 1) object ('-' :: '>' :: (name.toList ++ rest)) =
      readLinks fuel (ofForm (.fetch object name)) rest := by
  rw [readLinks, readWhile_name hname hrest]
  dsimp only
  split
  · exact absurd (hrest '(' rfl) (by decide)
  · rw [String.ofList_toList]

theorem readLinks_call (hname : isName name.toList) (fuel : Nat) (cs : List Char) :
    readLinks (fuel + 1) object ('-' :: '>' :: (name.toList ++ '(' :: cs)) =
      readArgs fuel ')' cs >>= fun r =>
        readLinks fuel (ofForm (.methodCall object name r.1)) r.2 := by
  rw [readLinks, readWhile_name_call hname]
  dsimp only
  rw [String.ofList_toList]
  rfl

theorem readLinks_end (hrest : BehindOperand rest) (fuel : Nat) :
    readLinks (fuel + 1) object rest = some (object, rest) := by
  rw [readLinks]
  rintro cs rfl
  exact absurd (hrest '-' rfl) (by decide)

/-! ### Expressions -/

/-- What is made of an operand and the text behind it. -/
def readBehindOperand (fuel : Nat) : Node × List Char → Option (Node × List Char)
  | (left, ' ' :: rest) => do
    let (symbol, rest) := readWhile (· ≠ ' ') rest
    let rest ← expect ' ' rest
    if symbol = ['='] then
      let (value, rest) ← readExpression fuel rest
      return (ofForm (.assign left value), rest)
    else
      let op ← Operator.all.find? fun op => op.symbol.toList = symbol
      let (right, rest) ← readOperand fuel rest
      return (ofForm (.binary op left right), rest)
  | (left, rest) => some (left, rest)

theorem readExpression_succ (fuel : Nat) (cs : List Char) :
    readExpression (fuel + 1) cs = readOperand fuel cs >>= readBehindOperand fuel := by
  rw [readExpression]
  refine congrArg (readOperand fuel cs >>= ·) (funext fun r => ?_)
  obtain ⟨left, rest⟩ := r
  dsimp only
  split <;> simp only [readBehindOperand]
  rfl

theorem comes_operand_alone {left : Node} (h : Comes (readOperand · cs) (left, rest))
    (hrest : BehindExpression rest) : Comes (readExpression · cs) (left, rest) := by
  refine .step (fun fuel => readExpression_succ fuel cs) (.bind h (.of_eq fun fuel => ?_))
  rw [readBehindOperand]
  rintro rest' rfl
  exact absurd (hrest ' ' rfl) (by decide)

theorem comes_assign {left value : Node} {behind : List Char}
    (h : Comes (readOperand · cs) (left, ' ' :: '=' :: ' ' :: behind))
    (hvalue : Comes (readExpression · behind) (value, rest)) :
    Comes (readExpression · cs) (ofForm (.assign left value), rest) := by
  refine .step (fun fuel => readExpression_succ fuel cs) (.bind h ?_)
  have hbehind : ∀ fuel, readBehindOperand fuel (left, ' ' :: '=' :: ' ' :: behind) =
      readExpression fuel behind >>= fun r => some (ofForm (.assign left r.1), r.2) := fun _ => rfl
  exact .congr hbehind (.bind hvalue (.of_eq fun _ => rfl))

theorem comes_binary {left right : Node} {op : Operator} {behind : List Char}
    (h : Comes (readOperand · cs) (left, ' ' :: (op.symbol.toList ++ ' ' :: behind)))
    (hright : Comes (readOperand · behind) (right, rest)) :
    Comes (readExpression · cs) (ofForm (.binary op left right), rest) := by
  refine .step (fun fuel => readExpression_succ fuel cs) (.bind h ?_)
  have hbehind : ∀ fuel, readBehindOperand fuel (left, ' ' :: (op.symbol.toList ++ ' ' :: behind)) =
      readOperand fuel behind >>= fun r => some (ofForm (.binary op left r.1), r.2) := by
    intro fuel
    cases op <;> rfl
  exact .congr hbehind (.bind hright (.of_eq fun _ => rfl))

/-! ### Arguments -/

/-- What is made of an item and the text behind it. -/
def readBehindItem (fuel : Nat) (close : Char) : Node × List Char → Option (List Node × List Char)
  | (e, ',' :: ' ' :: rest) => do
    let (es, rest) ← readArgs fuel close rest
    return (e :: es, rest)
  | (e, rest) => do return ([e], ← expect close rest)

theorem comes_items {close : Char} {r : Node × List Char} {y : List Node × List Char}
    (h : Comes (readExpression · cs) r) (hnext : Comes (readBehindItem · close r) y) :
    Comes (readArgs · close cs) y := by
  obtain ⟨least, h⟩ := h
  obtain ⟨least', hnext⟩ := hnext
  refine ⟨max least least' + 1, fun fuel hfuel => ?_⟩
  obtain ⟨fuel, rfl⟩ := Nat.exists_eq_add_one_of_ne_zero (Nat.ne_zero_of_lt hfuel)
  have hread : readExpression fuel cs = some r := h fuel (by omega)
  rw [← hnext fuel (by omega)]
  dsimp only
  rw [readArgs, hread]
  obtain ⟨e, rest⟩ := r
  dsimp only
  split
  · exact nomatch ‹some _ = none›
  · rename_i heq
    obtain ⟨rfl, rfl⟩ := Prod.mk.inj (Option.some.inj heq)
    rfl
  · rename_i hne heq
    obtain ⟨rfl, rfl⟩ := Prod.mk.inj (Option.some.inj heq)
    rw [readBehindItem]
    exact fun rest h => hne rest h

theorem comes_no_items {close : Char} (hclose : close = ')' ∨ close = ']') (rest : List Char) :
    Comes (readArgs · close (close :: rest)) ([], rest) := by
  have hnone : ∀ fuel, readExpression fuel (close :: rest) = none := by
    intro fuel
    cases fuel with
    | zero => rfl
    | succ fuel =>
      rw [readExpression_succ]
      cases fuel with
      | zero => rfl
      | succ fuel => rcases hclose with rfl | rfl <;> rfl
  have hstep : ∀ fuel, readArgs (fuel + 1) close (close :: rest) = some ([], rest) := by
    intro fuel
    rw [readArgs, hnone]
    dsimp only
    rw [expect, if_pos rfl]
    rfl
  exact .step hstep (.of_eq fun _ => rfl)

end Steps

end Source

end PhpRefactor
