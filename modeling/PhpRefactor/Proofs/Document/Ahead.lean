import PhpRefactor.Document.Tree
import PhpRefactor.Proofs.Json.Height
import PhpRefactor.Proofs.Results

/-!
# The tokens ahead of a reader

A reader of documents takes tokens off the front of others and makes up none.  So what is said of
the tokens ahead of it, and of the number of brackets that are open in front of them (`Ahead`), is
kept by all readers of documents when it is kept by taking a token, by reading a value and by
passing over one.  There is one rule for each way to put readers together (`DocumentReader.Leads`);
together they say what the outermost node of a document is made of (`DocumentReader.of_run_root`).
-/

set_option autoImplicit false

namespace PhpRefactor

/-- What is said of the tokens ahead and of the values that stand there, with so many brackets open
in front of them. -/
structure Ahead where
  tokens : Nat → List Token → Prop
  value : Nat → Json → Prop
  tail : ∀ {b : Nat} {t : Token} {ts : List Token}, tokens b (t :: ts) → tokens (t.opens b) ts
  read : ∀ {b limit : Nat} {v : Json} {ts rest : List Token},
    tokens b ts → Json.readFrom limit .start ts = .ok (v, rest) → tokens b rest ∧ value b v
  skip : ∀ {b : Nat} {ts rest : List Token},
    tokens b ts → Json.skip ts = .ok rest → tokens b rest

namespace DocumentReader

variable {α β σ : Type} {ahead : Ahead} {b : Nat}

/-- From where `b` brackets are open the reader gets to where so many are open, with a value of
which `P` says both. -/
def Leads (ahead : Ahead) (b : Nat) (P : α → Nat → Prop) (reader : DocumentReader α) : Prop :=
  ∀ ts x rest, ahead.tokens b ts → reader ts = .ok (x, rest) →
    ∃ after, P x after ∧ ahead.tokens after rest

variable {P : α → Nat → Prop} {Q : β → Nat → Prop}

theorem leads_pure {x : α} (h : P x b) : (pure x : DocumentReader α).Leads ahead b P := by
  intro ts y rest hts hy
  obtain ⟨rfl, rfl⟩ := Prod.mk.inj (Except.ok.inj hy)
  exact ⟨b, h, hts⟩

theorem Leads.bind {reader : DocumentReader α} {next : α → DocumentReader β}
    (h : reader.Leads ahead b P) (hnext : ∀ x after, P x after → (next x).Leads ahead after Q) :
    (reader >>= next).Leads ahead b Q := by
  intro ts y rest hts hy
  obtain ⟨⟨x, behind⟩, hx, hy⟩ :=
    (bind_eq_ok_iff (r := reader ts) (f := fun p => next p.1 p.2)).mp hy
  obtain ⟨after, hP, hbehind⟩ := h ts x behind hts hx
  exact hnext x after hP behind y rest hbehind hy

theorem Leads.mono {R : α → Nat → Prop} {reader : DocumentReader α} (h : reader.Leads ahead b P)
    (hPR : ∀ x after, P x after → R x after) : reader.Leads ahead b R := by
  intro ts x rest hts hx
  obtain ⟨after, hP, hrest⟩ := h ts x rest hts hx
  exact ⟨after, hPR x after hP, hrest⟩

theorem leads_refuse (reason : DataError) : (refuse reason : DocumentReader α).Leads ahead b P :=
  fun _ _ _ _ hx => nomatch hx

theorem leads_malformed (reason : SyntaxError) :
    (malformed reason : DocumentReader α).Leads ahead b P :=
  fun _ _ _ _ hx => nomatch hx

theorem leads_accept {r : Except DataError α} (h : ∀ x, r = .ok x → P x b) :
    (accept r).Leads ahead b P := by
  cases r with
  | error e => exact leads_refuse e
  | ok x => exact leads_pure (h x rfl)

/-! ## Values -/

theorem leads_value (limit : Nat) :
    (value limit).Leads ahead b fun v after => after = b ∧ ahead.value b v := by
  intro ts v rest hts hv
  obtain ⟨hrest, hvalue⟩ := ahead.read hts (mapError_eq_ok_iff.mp hv)
  exact ⟨b, ⟨rfl, hvalue⟩, hrest⟩

theorem leads_skipped : skipped.Leads ahead b fun _ after => after = b := by
  intro ts x rest hts hx
  unfold skipped at hx
  split at hx
  · rename_i behind hskip
    obtain ⟨-, rfl⟩ := Prod.mk.inj (Except.ok.inj hx)
    exact ⟨b, rfl, ahead.skip hts hskip⟩
  · exact nomatch hx

theorem leads_opening :
    opening.Leads ahead b fun bracket after => after = bracket.elim b fun _ => b + 1 := by
  intro ts o rest hts ho
  unfold opening at ho
  split at ho
  all_goals
    obtain ⟨rfl, rfl⟩ := Prod.mk.inj (Except.ok.inj ho)
  · exact ⟨_, rfl, ahead.tail hts⟩
  · exact ⟨_, rfl, ahead.tail hts⟩
  · exact ⟨_, rfl, hts⟩

theorem Leads.container {wanted : String} {array object : DocumentReader α}
    (harray : array.Leads ahead (b + 1) P) (hobject : object.Leads ahead (b + 1) P) :
    (container wanted array object).Leads ahead b P := by
  refine .bind leads_opening fun bracket after hafter => ?_
  subst hafter
  match bracket with
  | some .array => exact harray
  | some .object => exact hobject
  | none => exact .bind (leads_value 0) fun _ _ _ => leads_refuse _

/-- A number is read without opening anything. -/
theorem leads_uint32 : (scalar Decoder.uint32).Leads ahead b fun _ after => after = b := by
  refine .bind leads_opening fun bracket after hafter => ?_
  subst hafter
  match bracket with
  | some .array => exact leads_refuse _
  | some .object => exact leads_refuse _
  | none =>
    refine .bind (leads_value 0) fun v after hafter => ?_
    exact leads_accept fun _ _ => hafter.1

/-! ## Items and members -/

theorem leads_anotherItem (first : Bool) :
    (anotherItem first).Leads ahead (b + 1)
      fun more after => after = if more then b + 1 else b := by
  intro ts o rest hts ho
  unfold anotherItem at ho
  split at ho
  · exact nomatch ho
  · obtain ⟨rfl, rfl⟩ := Prod.mk.inj (Except.ok.inj ho)
    exact ⟨_, rfl, ahead.tail hts⟩
  · split at ho
    · obtain ⟨rfl, rfl⟩ := Prod.mk.inj (Except.ok.inj ho)
      exact ⟨_, rfl, hts⟩
    · exact nomatch ho
    · obtain ⟨rfl, rfl⟩ := Prod.mk.inj (Except.ok.inj ho)
      exact ⟨_, rfl, ahead.tail hts⟩
    · exact nomatch ho

theorem leads_arrayEnd : arrayEnd.Leads ahead (b + 1) fun _ after => after = b := by
  intro ts o rest hts ho
  unfold arrayEnd at ho
  split at ho
  case h_2 =>
    obtain ⟨-, rfl⟩ := Prod.mk.inj (Except.ok.inj ho)
    exact ⟨_, rfl, ahead.tail hts⟩
  all_goals exact nomatch ho

theorem leads_anotherKey (first : Bool) :
    (anotherKey first).Leads ahead (b + 1) fun key after => after = key.elim b fun _ => b + 1 := by
  intro ts o rest hts ho
  unfold anotherKey at ho
  split at ho
  · exact nomatch ho
  · obtain ⟨rfl, rfl⟩ := Prod.mk.inj (Except.ok.inj ho)
    exact ⟨_, rfl, ahead.tail hts⟩
  · split at ho
    case h_1 =>
      obtain ⟨rfl, rfl⟩ := Prod.mk.inj (Except.ok.inj ho)
      exact ⟨_, rfl, ahead.tail hts⟩
    case h_2 =>
      obtain ⟨rfl, rfl⟩ := Prod.mk.inj (Except.ok.inj ho)
      exact ⟨_, rfl, ahead.tail (ahead.tail hts)⟩
    all_goals exact nomatch ho

theorem Leads.behindColon {reader : DocumentReader α} (h : reader.Leads ahead b P) :
    (behindColon reader).Leads ahead b P := by
  intro ts x rest hts hx
  unfold DocumentReader.behindColon at hx
  split at hx
  · exact nomatch hx
  · exact h _ x rest (ahead.tail hts) hx
  · exact nomatch hx

theorem Leads.once {key : String} {already : Option α} {reader : DocumentReader α}
    (h : reader.Leads ahead b P) :
    (once key already reader).Leads ahead b fun o after => ∃ x, o = some x ∧ P x after := by
  have hread : (some <$> DocumentReader.behindColon reader).Leads ahead b
      fun o after => ∃ x, o = some x ∧ P x after :=
    .bind h.behindColon fun x _ hx => leads_pure ⟨x, rfl, hx⟩
  unfold DocumentReader.once
  split
  · exact .bind (leads_refuse (P := fun _ _ => False) _) fun _ _ hnone => hnone.elim
  · exact hread

theorem leads_given (key : String) (o : Option α) :
    (given key o).Leads ahead b fun _ after => after = b := by
  cases o with
  | none => exact leads_refuse _
  | some x => exact leads_pure rfl

/-- Members are read one after another, up to the brace that closes the object. -/
theorem leads_members {I : σ → Prop} {member : σ → String → DocumentReader σ} {s : σ} (hs : I s)
    (hmember : ∀ s key, I s →
      (member s key).Leads ahead (b + 1) fun t after => after = b + 1 ∧ I t) :
    (members member s).Leads ahead (b + 1) fun t after => after = b ∧ I t := by
  have hwithin : ∀ (fuel : Nat) (first : Bool) (s : σ), I s →
      (membersWithin member fuel first s).Leads ahead (b + 1)
        fun t after => after = b ∧ I t := by
    intro fuel
    induction fuel with
    | zero => exact fun _ _ _ => leads_malformed _
    | succ fuel ih =>
      intro first s hs
      refine .bind (leads_anotherKey first) fun key after hafter => ?_
      subst hafter
      cases key with
      | none => exact leads_pure ⟨rfl, hs⟩
      | some key =>
        refine .bind (hmember s key hs) fun t after ht => ?_
        obtain ⟨rfl, ht⟩ := ht
        exact ih false t ht
  exact fun ts x rest hts hx => hwithin _ true s hs ts x rest hts hx

/-! ## Positions -/

theorem leads_spanItem (place : Nat) :
    (spanItem place).Leads ahead (b + 1) fun _ after => after = b + 1 := by
  refine .bind (leads_anotherItem _) fun more after hafter => ?_
  subst hafter
  cases more with
  | true => exact leads_uint32
  | false => exact leads_refuse _

theorem leads_spanMember (parts : SpanParts) (key : String) :
    (spanMember parts key).Leads ahead b fun _ after => after = b := by
  have honce : ∀ already, (once key already (scalar Decoder.uint32)).Leads ahead b
      fun _ after => after = b :=
    fun _ => leads_uint32.once.mono fun _ _ ⟨_, _, hafter⟩ => hafter
  unfold spanMember
  split
  · exact .bind (honce _) fun _ _ h => leads_pure h
  · exact .bind (honce _) fun _ _ h => leads_pure h
  · exact .bind (honce _) fun _ _ h => leads_pure h
  · exact .bind leads_skipped.behindColon fun _ _ h => leads_pure h

theorem leads_span : span.Leads ahead b fun _ after => after = b := by
  have hmembers : (members spanMember ⟨none, none, none⟩).Leads ahead (b + 1)
      fun _ after => after = b ∧ True :=
    leads_members trivial fun parts key _ =>
      (leads_spanMember parts key).mono fun _ _ hafter => ⟨hafter, trivial⟩
  refine .container ?_ ?_
  · refine .bind (leads_spanItem 0) ?_
    rintro start _ rfl
    refine .bind (leads_spanItem 1) ?_
    rintro stop _ rfl
    refine .bind (leads_spanItem 2) ?_
    rintro line _ rfl
    exact .bind leads_arrayEnd fun _ _ h => leads_pure h
  · refine .bind hmembers ?_
    rintro parts _ ⟨rfl, -⟩
    refine .bind (leads_given _ _) ?_
    rintro start _ rfl
    refine .bind (leads_given _ _) ?_
    rintro stop _ rfl
    exact .bind (leads_given _ _) fun _ _ h => leads_pure h

/-! ## The outermost node -/

theorem leads_rootMember {parts : RootParts} (key : String)
    (h : ∀ f ∈ parts.fields, ahead.value b f.2) :
    (rootMember parts key).Leads ahead b
      fun parts after => after = b ∧ ∀ f ∈ parts.fields, ahead.value b f.2 := by
  unfold rootMember
  split
  · refine .bind leads_span.once ?_
    rintro position _ ⟨-, -, rfl⟩
    exact leads_pure ⟨rfl, h⟩
  · refine .bind (leads_value _).behindColon ?_
    rintro v _ ⟨rfl, hv⟩
    exact leads_pure ⟨rfl, List.forall_mem_cons.mpr ⟨hv, h⟩⟩

/-- The construct of the node comes from members, one bracket being open in front of them. -/
def Made (ahead : Ahead) (n : Node) : Prop :=
  ∃ fields : List (String × Json), (∀ f ∈ fields, ahead.value 1 f.2) ∧
    Decoder.construct (Decoder.node (Json.depthFields fields)) fields = .ok n.form

theorem leads_root : root.Leads ahead 0 fun n _ => Made ahead n := by
  refine .container (leads_refuse _) ?_
  refine .bind (leads_members (fun _ hf => absurd hf List.not_mem_nil)
    fun parts key hparts => leads_rootMember key hparts) ?_
  rintro parts _ ⟨rfl, hparts⟩
  refine .bind (P := fun form _ => Decoder.construct _ _ = .ok form)
    (leads_accept fun form hform => hform) ?_
  intro form after hform
  exact leads_pure ⟨_, fun f hf => hparts f (List.mem_reverse.mp hf), hform⟩

/-- What can be said of all tokens of a text can be said of the members of its outermost node. -/
theorem of_run_root {text : String} {n : Node} (h : root.run text = .ok n)
    (htext : ahead.tokens 0 (Token.scan text.toList)) : Made ahead n := by
  rw [run] at h
  split at h
  · exact nomatch h
  · rename_i m hroot
    obtain ⟨after, hmade, -⟩ := leads_root _ _ _ htext hroot
    exact Except.ok.inj h ▸ hmade
  · exact nomatch h

end DocumentReader

end PhpRefactor
