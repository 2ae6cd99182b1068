import Formula.Proofs.Pieces

namespace Formula

open Formula.Parser

namespace Parser

namespace Nesting

variable {functions : Functions} {cells : Table String Cell} {n next : Nesting} {t : Token}
  {tokens : List Token} {pieces : List Piece}

/-- What the tokens that follow add for the group that is open already. -/
def owed (n : Nesting) (tokens : List Token) : List (Option Piece) :=
  if n.IsBlank ∧ endsEmpty tokens then [some (.const 0)] else []

theorem owed_of_endsEmpty (h : endsEmpty tokens = false) : n.owed tokens = [] := by
  simp [owed, h]

theorem owed_of_awaited {call : String × Function} (h : n.awaited = some call) :
    n.owed tokens = [] := by
  simp [owed, IsBlank, h]

theorem owed_of_trees (h : n.current.trees ≠ []) : n.owed tokens = [] := by
  simp [owed, IsBlank, h]

theorem owed_of_operators (h : n.current.operators ≠ []) : n.owed tokens = [] := by
  simp [owed, IsBlank, h]

/-- One token's part of the pieces, from what is owed in front of it to what is owed behind it. -/
theorem piecesOf_cons (hnext : n.accept functions t = .ok next)
    (hcells : CellsKept next.vars.cells cells) (rest : List Token) :
    n.owed (t :: rest) ++ piecesOf functions cells n.awaited.isSome (t :: rest) =
      (n.added functions t).map some ++
        (next.owed rest ++ piecesOf functions cells next.awaited.isSome rest) := by
  have hends : t.kind ≠ .closing → t.kind ≠ .comma → endsEmpty (t :: rest) = false := by
    intro hclosing hcomma
    simp [endsEmpty, hclosing, hcomma]
  cases accepts_of_ok hnext with
  | opening hk =>
    have hblank : n.openGroup.IsBlank ↔ n.awaited = none := by
      simp [IsBlank, Nesting.openGroup, Level.empty]
    rw [owed_of_endsEmpty (hends (by simp [hk]) (by simp [hk]))]
    simp only [piecesOf, hk, added, owed, hblank]
    cases n.awaited <;> cases endsEmpty rest <;> rfl
  | closing hk hn =>
    have hleft : n.owed (t :: rest) = (n.added functions t).map some := by
      by_cases hempty : n.IsBlank <;> simp [owed, added, endsEmpty, hk, hempty]
    rw [hleft, owed_of_trees (List.cons_ne_nil _ _)]
    simp [piecesOf, hk, hn]
  | @comma made hk hn hopen hmade =>
    have hblank : IsBlank { n with current := ⟨n.current.call, [], made⟩ } ↔ n.IsBlank := by
      simp [IsBlank, reduceAll_eq_nil_iff hmade]
    have hsame : n.owed (t :: rest) =
        owed { n with current := ⟨n.current.call, [], made⟩ } rest := by
      simp [owed, hblank, endsEmpty, hk]
    rw [hsame]
    simp [piecesOf, hk, added, hn]
  | number hk hn hvalue =>
    rw [owed_of_endsEmpty (hends (by simp [hk]) (by simp [hk])),
      owed_of_trees (List.cons_ne_nil _ _)]
    simp [piecesOf, hk, added, hvalue, push, hn]
  | key hk hn hf =>
    rw [owed_of_endsEmpty (hends (by simp [hk]) (by simp [hk])), owed_of_awaited rfl]
    simp [piecesOf, hk, added, hf]
  | name hk hn hf =>
    have hcell := hcells t.text _ (n.vars.resolve_find? t.text)
    rw [owed_of_endsEmpty (hends (by simp [hk]) (by simp [hk])),
      owed_of_trees (List.cons_ne_nil _ _)]
    simp [piecesOf, hk, added, hf, hcell, pushVariable, push, hn]
  | operator hk hn hop hlevel =>
    rw [owed_of_endsEmpty (hends (by simp [hk]) (by simp [hk])),
      owed_of_operators (Level.pushOperator_waits hlevel)]
    simp [piecesOf, hk, added, hn]

theorem Spells.acceptAll (h : n.Spells pieces) (hcells : CellsKept next.vars.cells cells)
    (hnext : n.acceptAll functions tokens = .ok next) :
    ∃ more, n.owed tokens ++ piecesOf functions cells n.awaited.isSome tokens = more.map some ∧
      next.Spells (pieces ++ more) := by
  induction tokens generalizing n pieces with
  | nil =>
    cases hnext
    exact ⟨[], by simp [owed, endsEmpty, piecesOf], by simpa using h⟩
  | cons t tokens ih =>
    obtain ⟨m, ht, hrest⟩ := bind_eq_ok hnext
    obtain ⟨more, hmore, hspells⟩ := ih (h.accept ht) hrest
    refine ⟨n.added functions t ++ more, ?_, by simpa using hspells⟩
    rw [piecesOf_cons ht ((acceptAll_keeps hrest).trans hcells), hmore, List.map_append]

end Nesting

/-- How often an operator stands in trees. -/
def operatorCount (op : Operator) (trees : List Tree) : Nat :=
  ((nodes trees).filterMap Tree.operator?).count op

/-- The operators that wait on a level or stand in its trees. -/
def Level.operatorsIn (l : Level) : List Operator :=
  l.operators ++ (nodes l.trees).filterMap Tree.operator?

def Nesting.operatorCount (op : Operator) (n : Nesting) : Nat :=
  (n.levels.flatMap Level.operatorsIn).count op

theorem Nesting.operatorCount_eq (op : Operator) (n : Nesting) :
    n.operatorCount op = n.current.operators.count op + Parser.operatorCount op n.current.trees +
      (n.outer.flatMap Level.operatorsIn).count op := by
  simp [operatorCount, levels, Level.operatorsIn, Parser.operatorCount, Nat.add_assoc]

theorem operatorCount_cons (op : Operator) (tree : Tree) (trees : List Tree) :
    operatorCount op (tree :: trees) =
      operatorCount op trees + (tree.walk.filterMap Tree.operator?).count op := by
  simp [operatorCount, nodes_cons]

theorem reduce_operatorCount {applied : Operator} {trees made : List Tree} (op : Operator)
    (h : applied.reduce trees = .ok made) :
    operatorCount op made = operatorCount op trees + [applied].count op := by
  match applied, trees, h with
  | .unary kind, operand :: rest, rfl =>
    simp only [operatorCount_cons, Tree.walk_unary, List.filterMap_cons, Tree.operator?,
      List.count_cons, List.count_nil]
    omega
  | .binary kind, right :: left :: rest, rfl =>
    simp only [operatorCount_cons, Tree.walk_binary, List.filterMap_cons, List.filterMap_append,
      Tree.operator?, List.count_cons, List.count_append, List.count_nil]
    omega
  | .assign, right :: left :: rest, h =>
    cases left <;> cases h
    simp only [operatorCount_cons, Tree.walk_assign, Tree.walk_var, List.filterMap_cons,
      List.filterMap_nil, Tree.operator?, List.count_cons, List.count_nil]
    omega

theorem reduceAll_operatorCount {operators : List Operator} {trees made : List Tree} (op : Operator)
    (h : reduceAll operators trees = .ok made) :
    operatorCount op made = operatorCount op trees + operators.count op := by
  induction operators generalizing trees with
  | nil =>
    cases h
    rfl
  | cons applied operators ih =>
    obtain ⟨middle, hop, hrest⟩ := bind_eq_ok h
    have hmade := ih hrest
    have hmiddle := reduce_operatorCount op hop
    simp only [List.count_cons, List.count_nil] at hmiddle ⊢
    omega

theorem result_operators {call : Option (String × Function)} {made : List Tree} {tree : Tree}
    (h : (Level.mk call [] made).result = .ok tree) :
    tree.walk.filterMap Tree.operator? = (nodes made).filterMap Tree.operator? := by
  cases call with
  | some entry =>
    simp only [Level.result, Function.apply] at h
    split at h
    · cases h
      rw [Tree.walk_call]
      rfl
    · cases h
  | none =>
    cases h
    rcases Tree.walk_ofGroup made.reverse with ⟨hnone, hwalk⟩ | ⟨_, hwalk⟩ | ⟨_, hwalk⟩
    · rw [List.reverse_eq_nil_iff] at hnone
      rw [hwalk, hnone]
      rfl
    · rw [hwalk, nodes]
    · rw [hwalk]
      rfl

/-- The operators among tokens. -/
def operatorsOf (tokens : List Token) : List (Option Operator) :=
  (tokens.filter (·.kind == .operator)).map (Operator.ofLexeme? ·.text)

namespace Nesting

variable {functions : Functions} {n next : Nesting} {t : Token} {tokens : List Token}

theorem accept_operators (h : n.accept functions t = .ok next) :
    ∃ operators : List Operator, operatorsOf [t] = operators.map some ∧
      ∀ op, next.operatorCount op = n.operatorCount op + operators.count op := by
  simp only [operatorCount_eq]
  cases accepts_of_ok h with
  | opening hk =>
    refine ⟨[], by simp [operatorsOf, hk], fun op => ?_⟩
    simp [Nesting.openGroup, Level.empty, Level.operatorsIn, Parser.operatorCount, nodes,
      Nat.add_assoc]
  | closing hk hn houter hmade htree =>
    refine ⟨[], by simp [operatorsOf, hk], fun op => ?_⟩
    have hcount := reduceAll_operatorCount op hmade
    have hresult := congrArg (List.count op) (result_operators htree)
    simp only [houter, List.flatMap_cons, List.count_append, Level.operatorsIn, Level.push,
      operatorCount_cons, List.count_nil]
    rw [hresult]
    simp only [Parser.operatorCount] at hcount ⊢
    omega
  | comma hk hn hopen hmade =>
    refine ⟨[], by simp [operatorsOf, hk], fun op => ?_⟩
    have hcount := reduceAll_operatorCount op hmade
    simp only [List.count_nil]
    omega
  | number hk hn hvalue =>
    refine ⟨[], by simp [operatorsOf, hk], fun op => ?_⟩
    simp only [push, Level.push, operatorCount_cons, Tree.walk_const]
    rfl
  | key hk hn hf => exact ⟨[], by simp [operatorsOf, hk], fun op => rfl⟩
  | name hk hn hf =>
    refine ⟨[], by simp [operatorsOf, hk], fun op => ?_⟩
    simp only [pushVariable, push, Level.push, operatorCount_cons, Tree.walk_var]
    rfl
  | @operator applied level hk hn hop hlevel =>
    obtain ⟨made, hmade, hl⟩ := bind_eq_ok hlevel
    cases hl
    refine ⟨[applied], by simp [operatorsOf, hk, hop], fun op => ?_⟩
    have hcount := reduceAll_operatorCount op hmade
    have hsplit := congrArg (List.count op)
      (List.takeWhile_append_dropWhile (p := applied.yieldsTo) (l := n.current.operators))
    simp only [List.count_append] at hsplit
    simp only [List.count_cons, List.count_nil]
    omega

theorem acceptAll_operators (h : n.acceptAll functions tokens = .ok next) :
    ∃ operators : List Operator, operatorsOf tokens = operators.map some ∧
      ∀ op, next.operatorCount op = n.operatorCount op + operators.count op := by
  induction tokens generalizing n with
  | nil =>
    cases h
    exact ⟨[], rfl, fun _ => rfl⟩
  | cons t tokens ih =>
    obtain ⟨m, ht, hrest⟩ := bind_eq_ok h
    obtain ⟨first, hfirst, hcount⟩ := accept_operators ht
    obtain ⟨more, hmore, hlast⟩ := ih hrest
    refine ⟨first ++ more, ?_, fun op => ?_⟩
    · have hsplit : operatorsOf (t :: tokens) = operatorsOf [t] ++ operatorsOf tokens := by
        simp [operatorsOf, ← List.map_append, ← List.filter_append]
      rw [hsplit, hfirst, hmore, List.map_append]
    · rw [hlast op, hcount op, List.count_append, Nat.add_assoc]

end Nesting

end Parser

section Formulas

variable {functions : Functions} {vars : Variables} {tokens : List Token} {tree : Tree}

open Nesting

/-- A formula that has been read is one tree on one level. -/
theorem readFormula_levels {n : Nesting} (hbalanced : Balanced tokens)
    (h : (start vars []).readGroup functions tokens = .ok n) (hfinish : n.finish = .ok tree) :
    n.levels = [⟨none, [], [tree]⟩] ∧ n.awaited = none := by
  obtain ⟨m, entries, _, _, rfl⟩ := (readGroup_ok_iff hbalanced).mp h
  cases hfinish
  exact ⟨rfl, rfl⟩

theorem walk_pieces {n : Nesting} (hbalanced : Balanced tokens)
    (h : (start vars []).readGroup functions tokens = .ok n) (hfinish : n.finish = .ok tree) :
    ∃ pieces, Spells tree.walk pieces ∧
      piecesOf functions n.vars.cells false (Token.opening :: tokens ++ [Token.closing]) =
        pieces.map some := by
  have hstart : (start vars []).Spells [] := ⟨[], .level .nil .nil, rfl⟩
  obtain ⟨pieces, hpieces, hspells⟩ := hstart.acceptAll (.refl _) h
  obtain ⟨hlevels, hawaited⟩ := readFormula_levels hbalanced h hfinish
  obtain ⟨before, hbefore, htotal⟩ := hspells
  rw [hlevels] at hbefore
  cases hbefore with
  | level houter hown =>
    cases houter
    simp only [hawaited, callPieces, Option.toList_none, List.map_nil, List.nil_append,
      List.append_nil] at htotal
    refine ⟨pieces, ?_, hpieces⟩
    rw [htotal]
    simpa [nodes] using hown

theorem walk_operators {n : Nesting} (hbalanced : Balanced tokens)
    (h : (start vars []).readGroup functions tokens = .ok n) (hfinish : n.finish = .ok tree) :
    (operatorsOf tokens).Perm ((tree.walk.filterMap Tree.operator?).map some) := by
  obtain ⟨operators, hoperators, hcount⟩ := acceptAll_operators h
  obtain ⟨hlevels, -⟩ := readFormula_levels hbalanced h hfinish
  have hsame : operatorsOf tokens = operators.map some := by
    rw [← hoperators]
    simp [operatorsOf, Token.opening, Token.closing]
  rw [hsame]
  refine List.Perm.map _ (List.perm_iff_count.mpr (fun op => ?_))
  have htotal := hcount op
  simp only [Nesting.operatorCount, hlevels] at htotal
  simpa [start, levels, Level.empty, Level.operatorsIn, nodes] using htotal.symm

/-- A tree has the pieces of its tokens, each once and in their order: a number is a constant, the
name of a function its call and any other identifier the cell of that name, with a 0 for each group
in which nothing stands. Its operators are those among the tokens. -/
theorem parseTokens_pieces (functions : Functions) (vars : Variables) (tokens : List Token)
    (tree : Tree) (hbalanced : Balanced tokens)
    (h : ((ParserState.start vars).parseTokens functions tokens).outcome = .ok tree) :
    let cells := ((ParserState.start vars).parseTokens functions tokens).parser.variables.cells
    (∃ pieces, Spells tree.walk pieces ∧
      piecesOf functions cells false (Token.opening :: tokens ++ [Token.closing]) =
        pieces.map some) ∧
    (operatorsOf tokens).Perm ((tree.walk.filterMap Tree.operator?).map some) ∧
    CellsKept vars.cells cells := by
  obtain ⟨n, hread, hfinish⟩ := bind_eq_ok (parseTokens_ok_iff.mp h)
  rw [parseTokens_variables hread hfinish]
  exact ⟨walk_pieces hbalanced hread hfinish, walk_operators hbalanced hread hfinish,
    acceptAll_keeps hread⟩

/-- The empty group is a 0 in front of `z`, and the group around all is a call that is set aside. -/
theorem parseTokens_pieces_call : ∃ tokens tree,
    let attempt := (ParserState.start .empty).parseTokens ⟨[("f", Function.last)]⟩ tokens
    tokens = [⟨.identifier, "x"⟩, ⟨.identifier, "f"⟩, .opening, ⟨.identifier, "y"⟩, .comma,
      .opening, .closing, .ofOperator (.binary .add), ⟨.identifier, "z"⟩, .closing] ∧
    Balanced tokens ∧ attempt.outcome = .ok tree ∧
      (∃ pieces, Spells tree.walk pieces ∧
        piecesOf ⟨[("f", Function.last)]⟩ attempt.parser.variables.cells false
          (Token.opening :: tokens ++ [Token.closing]) = pieces.map some) ∧
      (operatorsOf tokens).Perm ((tree.walk.filterMap Tree.operator?).map some) ∧
      CellsKept Variables.empty.cells attempt.parser.variables.cells := by
  obtain ⟨tokens, htokens⟩ : ∃ tokens : List Token, tokens = [⟨.identifier, "x"⟩,
      ⟨.identifier, "f"⟩, .opening, ⟨.identifier, "y"⟩, .comma, .opening, .closing,
      .ofOperator (.binary .add), ⟨.identifier, "z"⟩, .closing] := ⟨_, rfl⟩
  have hbalanced : Balanced tokens := by
    rw [htokens]
    rfl
  obtain ⟨tree, htree⟩ : ∃ tree, ((ParserState.start .empty).parseTokens
      ⟨[("f", Function.last)]⟩ tokens).outcome = .ok tree := by
    rw [parseTokens_outcome, htokens]
    exact ⟨_, rfl⟩
  exact ⟨tokens, tree, htokens, hbalanced, htree, parseTokens_pieces _ _ _ _ hbalanced htree⟩

end Formulas

end Formula
