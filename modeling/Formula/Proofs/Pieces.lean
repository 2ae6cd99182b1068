import Formula.Proofs.Balance
import Formula.Proofs.CellsKept
import Formula.Proofs.NestingRuns
import Formula.Proofs.OperandCounts
import Formula.Proofs.Walks

namespace Formula

open Formula.Parser

/-- A part of a tree that is no operator. -/
inductive Piece where
  | const (value : Float)
  | cell (cell : Cell)
  | call (function : Function)

namespace Tree

def piece? : Tree → Option Piece
  | const value => some (.const value)
  | var cell => some (.cell cell)
  | call function _ => some (.call function)
  | _ => none

def operator? : Tree → Option Operator
  | unary op _ => some (.unary op)
  | binary op _ _ => some (.binary op)
  | assign _ _ => some .assign
  | _ => none

end Tree

/-- Nodes in order have these pieces. Calls that groups without a key stand for are set aside. -/
inductive Spells : List Tree → List Piece → Prop
  | nil : Spells [] []
  | piece {node : Tree} {piece : Piece} {nodes : List Tree} {pieces : List Piece} :
      node.piece? = some piece → Spells nodes pieces → Spells (node :: nodes) (piece :: pieces)
  | operator {node : Tree} {nodes : List Tree} {pieces : List Piece} :
      node.piece? = none → Spells nodes pieces → Spells (node :: nodes) pieces
  | group {args nodes : List Tree} {pieces : List Piece} : 2 ≤ args.length →
      Spells nodes pieces → Spells (.call Function.last args :: nodes) pieces

/-- Whether a group that has just been opened ends with nothing but commas in it. -/
def endsEmpty (tokens : List Token) : Bool :=
  (tokens.dropWhile (·.kind == .comma)).head?.any (·.kind == .closing)

/-- The pieces that tokens stand for, over the cells of their names. A group without a key and with
nothing in it is a 0; `awaitsGroup` tells whether a key stands in front of the tokens. -/
def piecesOf (functions : Functions) (cells : Table String Cell) :
    (awaitsGroup : Bool) → List Token → List (Option Piece)
  | _, [] => []
  | awaitsGroup, t :: rest =>
    match t.kind with
    | .number => (Double.read? t.text).map .const :: piecesOf functions cells false rest
    | .identifier =>
      match functions.find? t.text with
      | some function => some (.call function) :: piecesOf functions cells true rest
      | none => (cells.find? t.text).map .cell :: piecesOf functions cells false rest
    | .opening =>
      if !awaitsGroup && endsEmpty rest then
        some (.const 0) :: piecesOf functions cells false rest
      else piecesOf functions cells false rest
    | .closing | .comma | .operator => piecesOf functions cells false rest

namespace Spells

variable {nodes more : List Tree} {pieces others : List Piece}

theorem append (h : Spells nodes pieces) (hmore : Spells more others) :
    Spells (nodes ++ more) (pieces ++ others) := by
  induction h with
  | nil => exact hmore
  | piece hnode _ ih => exact .piece hnode ih
  | operator hnode _ ih => exact .operator hnode ih
  | group hlength _ ih => exact .group hlength ih

theorem split {pieces : List Piece} (h : Spells (nodes ++ more) pieces) :
    ∃ first second, pieces = first ++ second ∧ Spells nodes first ∧ Spells more second := by
  induction nodes generalizing pieces with
  | nil => exact ⟨[], pieces, rfl, .nil, h⟩
  | cons node nodes ih =>
    cases h with
    | piece hnode hrest =>
      obtain ⟨first, second, rfl, hfirst, hsecond⟩ := ih hrest
      exact ⟨_ :: first, second, rfl, .piece hnode hfirst, hsecond⟩
    | operator hnode hrest =>
      obtain ⟨first, second, rfl, hfirst, hsecond⟩ := ih hrest
      exact ⟨first, second, rfl, .operator hnode hfirst, hsecond⟩
    | group hlength hrest =>
      obtain ⟨first, second, rfl, hfirst, hsecond⟩ := ih hrest
      exact ⟨first, second, rfl, .group hlength hfirst, hsecond⟩

/-- An operator may stand anywhere among the nodes. -/
theorem insert {pieces : List Piece} (h : Spells (nodes ++ more) pieces) (node : Tree)
    (hnode : node.piece? = none) : Spells (nodes ++ node :: more) pieces := by
  obtain ⟨first, second, rfl, hfirst, hsecond⟩ := h.split
  exact hfirst.append (.operator hnode hsecond)

/-- All cells in a tree are pieces of it. -/
theorem cell_mem {cell : Cell} (h : Spells nodes pieces) (hcell : .var cell ∈ nodes) :
    .cell cell ∈ pieces := by
  induction h with
  | nil => cases hcell
  | piece hnode _ ih =>
    rcases List.mem_cons.mp hcell with rfl | hrest
    · cases hnode
      exact List.mem_cons_self
    · exact List.mem_cons_of_mem _ (ih hrest)
  | operator hnode _ ih =>
    rcases List.mem_cons.mp hcell with rfl | hrest
    · cases hnode
    · exact ih hrest
  | group _ _ ih =>
    rcases List.mem_cons.mp hcell with hgroup | hrest
    · cases hgroup
    · exact ih hrest

end Spells

/-- The name of a variable that a token is, if it is one. -/
def nameIn (functions : Functions) (t : Token) : List String :=
  if t.kind = .identifier ∧ functions.find? t.text = none then [t.text] else []

/-- The names of variables among tokens. -/
def namesIn (functions : Functions) (tokens : List Token) : List String :=
  tokens.flatMap (nameIn functions)

/-- A cell among the pieces of tokens is the cell of a name among them. -/
theorem piecesOf_cell {functions : Functions} {tokens : List Token} {cells : Table String Cell}
    {awaits : Bool} {cell : Cell} (h : some (.cell cell) ∈ piecesOf functions cells awaits tokens) :
    ∃ name ∈ namesIn functions tokens, cells.find? name = some cell := by
  induction tokens generalizing awaits with
  | nil => cases h
  | cons t tokens ih =>
    have ih : ∀ {awaits}, some (.cell cell) ∈ piecesOf functions cells awaits tokens →
        ∃ name ∈ namesIn functions (t :: tokens), cells.find? name = some cell := by
      intro awaits hrest
      obtain ⟨name, hname, hcell⟩ := ih hrest
      exact ⟨name, List.mem_append_right _ hname, hcell⟩
    obtain ⟨kind, text⟩ := t
    cases kind with
    | number =>
      simp only [piecesOf, List.mem_cons] at h
      rcases h with hnumber | hrest
      · obtain ⟨_, _, hsame⟩ := Option.map_eq_some_iff.mp hnumber.symm
        cases hsame
      · exact ih hrest
    | identifier =>
      simp only [piecesOf] at h
      split at h
      · exact ih (by simpa using h)
      next hnone =>
        rcases List.mem_cons.mp h with hcell | hrest
        · obtain ⟨found, hfound, hsame⟩ := Option.map_eq_some_iff.mp hcell.symm
          cases hsame
          exact ⟨text, by simp [namesIn, nameIn, hnone], hfound⟩
        · exact ih hrest
    | opening =>
      simp only [piecesOf] at h
      split at h
      · exact ih (by simpa using h)
      · exact ih h
    | closing | comma | operator => exact ih h

theorem spells_const (value : Float) : Spells (Tree.const value).walk [.const value] := by
  rw [Tree.walk_const]
  exact .piece rfl .nil

theorem spells_var (cell : Cell) : Spells (Tree.var cell).walk [.cell cell] := by
  rw [Tree.walk_var]
  exact .piece rfl .nil

namespace Parser

/-- The nodes of trees, of which the last one made is the first. -/
def nodes (trees : List Tree) : List Tree :=
  trees.reverse.flatMap Tree.walk

theorem nodes_cons (tree : Tree) (trees : List Tree) :
    nodes (tree :: trees) = nodes trees ++ tree.walk := by
  simp [nodes]

def callPieces (call : Option (String × Function)) : List Piece :=
  call.toList.map (fun entry => .call entry.2)

/-- The pieces of levels from the outermost one on, each with its call in front. -/
inductive LevelsSpell : List Level → List Piece → Prop
  | nil : LevelsSpell [] []
  | level {l : Level} {outer : List Level} {before own : List Piece} : LevelsSpell outer before →
      Spells (nodes l.trees) own → LevelsSpell (l :: outer) (before ++ (callPieces l.call ++ own))

section Reduce

variable {op : Operator} {operators : List Operator} {trees made : List Tree} {pieces : List Piece}

theorem reduce_spells (h : op.reduce trees = .ok made) (hpieces : Spells (nodes trees) pieces) :
    Spells (nodes made) pieces := by
  match op, trees, h with
  | .unary kind, operand :: rest, rfl =>
    rw [nodes_cons] at hpieces ⊢
    simpa using hpieces.insert (.unary kind operand) rfl
  | .binary kind, right :: left :: rest, rfl =>
    rw [nodes_cons, nodes_cons, List.append_assoc] at hpieces
    rw [nodes_cons]
    simpa using hpieces.insert (.binary kind left right) rfl
  | .assign, right :: left :: rest, h =>
    cases left <;> cases h
    next target =>
      rw [nodes_cons, nodes_cons, List.append_assoc] at hpieces
      rw [nodes_cons]
      simpa using hpieces.insert (.assign target right) rfl

theorem reduceAll_spells (h : reduceAll operators trees = .ok made)
    (hpieces : Spells (nodes trees) pieces) : Spells (nodes made) pieces :=
  reduceAll_preserves (P := fun trees => Spells (nodes trees) pieces)
    (fun hpieces hop => reduce_spells hop hpieces) hpieces h

end Reduce

namespace Nesting

/-- The pieces read so far: those of all levels and the call that waits for its group. -/
def Spells (n : Nesting) (pieces : List Piece) : Prop :=
  ∃ before, LevelsSpell n.levels before ∧ pieces = before ++ callPieces n.awaited

/-- The innermost group is no call's and nothing but commas has been read of it. -/
def IsBlank (n : Nesting) : Prop :=
  n.awaited = none ∧ n.current.call = none ∧ n.current.operators = [] ∧ n.current.trees = []

instance (n : Nesting) : Decidable n.IsBlank :=
  inferInstanceAs (Decidable (_ ∧ _ ∧ _ ∧ _))

variable {functions : Functions} {cells : Table String Cell} {n next : Nesting} {t : Token}
  {pieces : List Piece}

/-- Work on the trees of the innermost level that keeps their pieces. -/
theorem Spells.replace (h : n.Spells pieces) (houter : next.outer = n.outer)
    (hcall : next.current.call = n.current.call) (hawaited : next.awaited = n.awaited)
    (htrees : ∀ own, Formula.Spells (nodes n.current.trees) own →
      Formula.Spells (nodes next.current.trees) own) : next.Spells pieces := by
  obtain ⟨_, hlevels, rfl⟩ := h
  cases hlevels with
  | @level _ _ before own hbefore hown =>
    refine ⟨before ++ (callPieces n.current.call ++ own), ?_, by rw [hawaited]⟩
    rw [levels, houter, ← hcall]
    exact .level hbefore (htrees own hown)

/-- A tree more on the innermost level. -/
theorem Spells.push (h : n.Spells pieces) (hn : n.awaited = none) {tree : Tree}
    {added : List Piece} (htree : Formula.Spells tree.walk added) :
    (n.push tree).Spells (pieces ++ added) := by
  obtain ⟨_, hlevels, rfl⟩ := h
  cases hlevels with
  | @level _ _ before own hbefore hown =>
    refine ⟨before ++ (callPieces n.current.call ++ (own ++ added)), ?_, ?_⟩
    · refine .level hbefore ?_
      rw [push, Level.push, nodes_cons]
      exact hown.append htree
    · simp [push, hn, callPieces]

theorem Spells.openGroup (h : n.Spells pieces) : n.openGroup.Spells pieces := by
  obtain ⟨before, hlevels, rfl⟩ := h
  refine ⟨before ++ (callPieces n.awaited ++ []), .level hlevels .nil, ?_⟩
  simp [Nesting.openGroup, callPieces]

/-- The tree of a group that ends has the pieces of its call and of its trees, or is a 0. -/
theorem result_spells {call : Option (String × Function)} {made : List Tree} {tree : Tree}
    (hown : Formula.Spells (nodes made) pieces)
    (htree : (Level.mk call [] made).result = .ok tree) :
    Formula.Spells tree.walk
      (if call = none ∧ made = [] then [.const 0] else callPieces call ++ pieces) := by
  cases call with
  | some entry =>
    obtain ⟨key, f⟩ := entry
    simp only [Level.result, Function.apply] at htree
    split at htree
    · cases htree
      rw [Tree.walk_call, if_neg (by simp)]
      exact .piece rfl hown
    · cases htree
  | none =>
    cases htree
    have hreverse : made.reverse = [] ↔ made = [] := List.reverse_eq_nil_iff
    rcases Tree.walk_ofGroup made.reverse with ⟨hnone, hwalk⟩ | ⟨hone, hwalk⟩ | ⟨hmany, hwalk⟩
    · rw [hwalk, if_pos ⟨rfl, hreverse.mp hnone⟩]
      exact .piece rfl .nil
    · have hne : made ≠ [] := by
        rintro rfl
        simp at hone
      rw [hwalk, if_neg (by simp [hne])]
      exact hown
    · have hne : made ≠ [] := by
        rintro rfl
        simp at hmany
      rw [hwalk, if_neg (by simp [hne])]
      exact .group hmany hown

/-- The pieces that a token adds. -/
def added (functions : Functions) (n : Nesting) (t : Token) : List Piece :=
  match t.kind with
  | .number => (Double.read? t.text).toList.map .const
  | .identifier =>
    match functions.find? t.text with
    | some function => [.call function]
    | none => [.cell (n.vars.resolve t.text).1]
  | .closing => if n.IsBlank then [.const 0] else []
  | .opening | .comma | .operator => []

/-- Operators put in place leave no trees only where there was nothing. -/
theorem reduceAll_eq_nil_iff {operators : List Operator} {trees made : List Tree}
    (h : reduceAll operators trees = .ok made) : made = [] ↔ operators = [] ∧ trees = [] := by
  constructor
  · rintro rfl
    have hoperators : operators = [] := by
      by_contra hne
      exact (reduceAll_length h).2 hne rfl
    subst hoperators
    cases h
    exact ⟨rfl, rfl⟩
  · rintro ⟨rfl, rfl⟩
    cases h
    rfl

theorem Spells.accept (h : n.Spells pieces) (hnext : n.accept functions t = .ok next) :
    next.Spells (pieces ++ n.added functions t) := by
  cases accepts_of_ok hnext with
  | opening hk => simpa [added, hk] using h.openGroup
  | @closing made tree level outer hk hn houter hmade htree =>
    obtain ⟨_, hlevels, rfl⟩ := h
    rw [levels, houter] at hlevels
    cases hlevels with
    | @level _ _ before own hbefore hown =>
      have haround : Spells ⟨none, level, outer, n.vars, n.created⟩ before :=
        ⟨before, hbefore, by simp [callPieces]⟩
      have htree := haround.push rfl (result_spells (reduceAll_spells hmade hown) htree)
      -- A group that is blank is a 0, and no other one is.
      have hadded : callPieces n.current.call ++ own ++ n.added functions t =
          if n.current.call = none ∧ made = [] then [.const 0]
          else callPieces n.current.call ++ own := by
        have hblank : n.IsBlank ↔ n.current.call = none ∧ made = [] := by
          simp [IsBlank, hn, reduceAll_eq_nil_iff hmade]
        by_cases hempty : n.IsBlank
        · have htrees := hempty.2.2.2
          rw [htrees] at hown
          cases hown
          simp [added, hk, hempty, hblank.mp hempty, callPieces]
        · simp [added, hk, hempty, hblank.not.mp hempty]
      have hpieces : before ++ (callPieces n.current.call ++ own) ++ callPieces n.awaited ++
          n.added functions t = before ++
            if n.current.call = none ∧ made = [] then [.const 0]
            else callPieces n.current.call ++ own := by
        rw [← hadded]
        simp [hn, callPieces]
      rw [hpieces, hn]
      exact htree
  | @comma made hk hn hopen hmade =>
    simp only [added, hk, List.append_nil]
    exact h.replace rfl rfl rfl (fun own hown => reduceAll_spells hmade hown)
  | @number value hk hn hvalue =>
    simp only [added, hk, hvalue]
    exact h.push hn (spells_const value)
  | @key f hk hn hf =>
    obtain ⟨before, hlevels, rfl⟩ := h
    refine ⟨before, hlevels, ?_⟩
    simp [added, hk, hf, hn, callPieces]
  | name hk hn hf =>
    simp only [added, hk, hf]
    exact h.push hn (spells_var _)
  | operator hk hn hop hlevel =>
    obtain ⟨made, hmade, hl⟩ := bind_eq_ok hlevel
    cases hl
    simp only [added, hk, List.append_nil]
    exact h.replace rfl rfl rfl (fun own hown => reduceAll_spells hmade hown)

end Nesting

end Parser

end Formula
