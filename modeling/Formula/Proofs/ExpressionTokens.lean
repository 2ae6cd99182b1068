import Formula.Proofs.Expressions
import Formula.Proofs.Tokenizing

namespace Formula

/-- Lexical tokens that fit where a value is expected and behind which none is. -/
structure ReadsAsValue (tokens : List Token) : Prop where
  isLexical : ∀ t ∈ tokens, t.IsLexical
  adjoined : ∀ rest, AdjoinedFrom false rest → AdjoinedFrom true (tokens ++ rest)

namespace ReadsAsValue

variable {tokens more : List Token}

theorem singleton {t : Token} (hlexical : t.IsLexical) (hfits : t.FitsWhere true)
    (hends : t.expectsValue = false) : ReadsAsValue [t] := by
  refine ⟨by simpa using hlexical, fun rest hrest => ?_⟩
  exact adjoinedFrom_cons.mpr ⟨hfits, hends ▸ hrest⟩

theorem behindOperator {op : Operator} (hop : op.FitsWhere true) (h : ReadsAsValue tokens) :
    ReadsAsValue (.ofOperator op :: tokens) := by
  refine ⟨?_, fun rest hrest => ?_⟩
  · intro t ht
    rcases List.mem_cons.mp ht with rfl | ht
    · exact ⟨op, rfl⟩
    · exact h.isLexical t ht
  · exact adjoinedFrom_cons.mpr ⟨Token.ofOperator_fitsWhere.mpr hop, h.adjoined rest hrest⟩

theorem around {op : Operator} (hop : op.FitsWhere false) (h : ReadsAsValue tokens)
    (hmore : ReadsAsValue more) : ReadsAsValue (tokens ++ .ofOperator op :: more) := by
  refine ⟨?_, fun rest hrest => ?_⟩
  · intro t ht
    rcases List.mem_append.mp ht with ht | ht
    · exact h.isLexical t ht
    · rcases List.mem_cons.mp ht with rfl | ht
      · exact ⟨op, rfl⟩
      · exact hmore.isLexical t ht
  · have hright : AdjoinedFrom false (.ofOperator op :: (more ++ rest)) :=
      adjoinedFrom_cons.mpr ⟨Token.ofOperator_fitsWhere.mpr hop, hmore.adjoined rest hrest⟩
    simpa using h.adjoined _ hright

end ReadsAsValue

/-- Tokens that fit between two parentheses. -/
structure ReadsAsEntries (tokens : List Token) : Prop where
  isLexical : ∀ t ∈ tokens, t.IsLexical
  adjoined : ∀ rest, AdjoinedFrom false rest → AdjoinedFrom true (tokens ++ .closing :: rest)

theorem ReadsAsValue.entry {tokens : List Token} (h : ReadsAsValue tokens) :
    ReadsAsEntries tokens :=
  ⟨h.isLexical, fun _ hrest => h.adjoined _ (adjoinedFrom_cons.mpr ⟨trivial, hrest⟩)⟩

namespace ReadsAsEntries

variable {tokens more : List Token}

theorem nil : ReadsAsEntries [] :=
  ⟨by simp, fun _ hrest => adjoinedFrom_cons.mpr ⟨trivial, hrest⟩⟩

theorem cons (h : ReadsAsValue tokens) (hmore : ReadsAsEntries more) :
    ReadsAsEntries (tokens ++ .comma :: more) := by
  refine ⟨?_, fun rest hrest => ?_⟩
  · intro t ht
    rcases List.mem_append.mp ht with ht | ht
    · exact h.isLexical t ht
    · rcases List.mem_cons.mp ht with rfl | ht
      · rfl
      · exact hmore.isLexical t ht
  · have hright : AdjoinedFrom false (.comma :: (more ++ .closing :: rest)) :=
      adjoinedFrom_cons.mpr ⟨trivial, hmore.adjoined rest hrest⟩
    simpa using h.adjoined _ hright

theorem group (h : ReadsAsEntries tokens) : ReadsAsValue (.opening :: (tokens ++ [.closing])) := by
  refine ⟨?_, fun rest hrest => ?_⟩
  · intro t ht
    simp only [List.mem_cons, List.mem_append, List.not_mem_nil, or_false] at ht
    rcases ht with rfl | ht | rfl
    · rfl
    · exact h.isLexical t ht
    · rfl
  · have hinside : AdjoinedFrom true (.opening :: (tokens ++ .closing :: rest)) :=
      adjoinedFrom_cons.mpr ⟨trivial, h.adjoined rest hrest⟩
    simpa using hinside

theorem call {key : String} (hkey : Lexer.IsIdentifier key.toList) (h : ReadsAsEntries tokens) :
    ReadsAsValue (⟨.identifier, key⟩ :: .opening :: (tokens ++ [.closing])) := by
  refine ⟨?_, fun rest hrest => ?_⟩
  · intro t ht
    rcases List.mem_cons.mp ht with rfl | ht
    · exact hkey
    · exact h.group.isLexical t ht
  · have hinside : AdjoinedFrom true (.opening :: (tokens ++ .closing :: rest)) :=
      adjoinedFrom_cons.mpr ⟨trivial, h.adjoined rest hrest⟩
    have hopening : AdjoinedFrom false (.opening :: (tokens ++ .closing :: rest)) :=
      adjoinedFrom_cons.mpr ⟨trivial, (adjoinedFrom_cons.mp hinside).2⟩
    have hcall := adjoinedFrom_cons.mpr
      (⟨rfl, hopening⟩ : Token.FitsWhere true ⟨.identifier, key⟩ ∧ _)
    simpa using hcall

end ReadsAsEntries

theorem ReadsAsValue.parenthesized {tokens : List Token} (needed : Bool) (h : ReadsAsValue tokens) :
    ReadsAsValue (Token.parenthesized needed tokens) := by
  cases needed with
  | false => exact h
  | true => exact h.entry.group

namespace Expr

variable {functions : Functions}

theorem unary_fitsWhere (op : UnaryOp) : (Operator.unary op).FitsWhere true := by
  cases op with
  | negate => rfl
  | _ => trivial

theorem binary_fitsWhere (op : BinaryOp) : (Operator.binary op).FitsWhere false :=
  rfl

mutual

theorem readsAsValue (e : Expr) (h : e.Valid functions) : ReadsAsValue e.tokens := by
  cases e with
  | number text => exact .singleton h rfl rfl
  | name text => exact .singleton h.1 rfl rfl
  | unary op operand =>
    exact ((readsAsValue operand h).parenthesized _).behindOperator (unary_fitsWhere op)
  | binary op left right =>
    exact .around (binary_fitsWhere op) ((readsAsValue left h.1).parenthesized _)
      ((readsAsValue right h.2).parenthesized _)
  | assign target value =>
    have htarget : ReadsAsValue [⟨.identifier, target⟩] := .singleton h.1.1 rfl rfl
    have hassign : Operator.assign.FitsWhere false := rfl
    exact .around hassign htarget ((readsAsValue value h.2).parenthesized _)
  | call key args => exact (readsAsEntries args h.2).call h.1.1
  | group entries => exact (readsAsEntries entries h.2).group

theorem readsAsEntries (entries : List Expr) (h : AllValid functions entries) :
    ReadsAsEntries (tokensAll entries) := by
  match entries with
  | [] => exact .nil
  | [entry] => exact (readsAsValue entry h.1).entry
  | entry :: next :: rest => exact .cons (readsAsValue entry h.1) (readsAsEntries (next :: rest) h.2)

end

theorem tokenize_of_renders {e : Expr} (h : e.Valid functions) {text : String}
    (htext : Renders e.tokens text.toList) : tokenize text = .ok e.tokens := by
  have hvalue := e.readsAsValue h
  have hadjoined := hvalue.adjoined [] (adjoinedFrom_nil false)
  rw [List.append_nil] at hadjoined
  exact tokenize_iff.mpr ⟨hadjoined, hvalue.isLexical, htext⟩

end Expr

end Formula
