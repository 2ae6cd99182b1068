import Formula.Proofs.ExpressionTokens
import Formula.Proofs.NestingRuns
import Formula.Proofs.Reading

namespace Formula

open Formula.Parser

namespace Expr

variable {functions : Functions}

/-- Whether in parentheses or not, an operand is read with nothing waiting that should not. -/
theorem readsAs_parenthesized {e : Expr} {n : Nesting} {needed : Bool} {waits : Operator → Prop}
    (hn : n.awaited = none)
    (h : ∀ m : Nesting, m.awaited = none → Operator.Keeps e.level m.current.operators →
      ReadsAs functions m e.tokens (fun op => op.precedence ≤ e.level) (e.tree? functions))
    (hkeeps : needed = false → Operator.Keeps e.level n.current.operators)
    (hwaits : needed = false → ∀ op : Operator, op.precedence ≤ e.level → waits op) :
    ReadsAs functions n (Token.parenthesized needed e.tokens) waits (e.tree? functions) := by
  cases needed with
  | false => exact (h n hn (hkeeps rfl)).imp (hwaits rfl)
  | true =>
    have hinside := h n.openGroup rfl (by simp [Operator.Keeps, Nesting.openGroup, Level.empty])
    exact Parser.readsAs_parenthesized _ hn (hinside.last rfl)

theorem readsAs_left {e : Expr} {n : Nesting} {op : Operator} (hn : n.awaited = none)
    (h : ∀ m : Nesting, m.awaited = none → Operator.Keeps e.level m.current.operators →
      ReadsAs functions m e.tokens (fun op => op.precedence ≤ e.level) (e.tree? functions))
    (hkeeps : Operator.Keeps op.precedence n.current.operators) :
    ReadsAs functions n (Token.parenthesized (op.parenthesizesLeft e.level) e.tokens)
      (fun stacked => op.yieldsTo stacked = true) (e.tree? functions) :=
  readsAs_parenthesized hn h (fun hop => hkeeps.mono (Operator.le_of_parenthesizesLeft hop))
    (fun hop _ hstacked => Operator.yieldsTo_of_parenthesizesLeft hop hstacked)

theorem readsAs_right {e : Expr} {n : Nesting} {op : Operator} (hn : n.awaited = none)
    (h : ∀ m : Nesting, m.awaited = none → Operator.Keeps e.level m.current.operators →
      ReadsAs functions m e.tokens (fun op => op.precedence ≤ e.level) (e.tree? functions))
    (made : List Tree) (vars : Variables) (created : List String) :
    ReadsAs functions (n.extend [op] made vars created)
      (Token.parenthesized (op.parenthesizesRight e.level) e.tokens)
      (fun stacked => stacked.precedence ≤ op.precedence) (e.tree? functions) :=
  readsAs_parenthesized hn h (fun hop => Operator.keeps_of_parenthesizesRight hop)
    (fun hop _ hstacked => Nat.le_trans hstacked (Operator.le_of_parenthesizesRight hop))

theorem trees?_length {cells : Table String Cell} {entries : List Expr} {trees : List Tree}
    (h : trees? functions cells entries = some trees) : trees.length = entries.length := by
  induction entries generalizing trees with
  | nil =>
    cases h
    rfl
  | cons entry entries ih =>
    obtain ⟨tree, _, h⟩ := Option.bind_eq_some_iff.mp h
    obtain ⟨rest, hrest, h⟩ := Option.bind_eq_some_iff.mp h
    cases h
    simp [ih hrest]

theorem map_ofGroup (cells : Table String Cell) {entries : List Expr} (h : 2 ≤ entries.length) :
    (trees? functions cells entries).map Tree.ofGroup =
      (trees? functions cells entries).map (.call Function.last) := by
  cases htrees : trees? functions cells entries with
  | none => rfl
  | some trees =>
    have hlength := trees?_length htrees
    match trees with
    | [] | [_] =>
      simp only [List.length_nil, List.length_singleton] at hlength
      omega
    | _ :: _ :: _ => rfl

mutual

theorem readsAs (e : Expr) (h : e.Valid functions) (n : Nesting) (hn : n.awaited = none)
    (hkeeps : Operator.Keeps e.level n.current.operators) :
    ReadsAs functions n e.tokens (fun op => op.precedence ≤ e.level) (e.tree? functions) := by
  cases e with
  | number text => exact readsAs_number _ hn h
  | name text => exact readsAs_name _ hn h.2
  | unary op operand =>
    refine readsAs_prefix hn hkeeps
      (readsAs_right hn (readsAs operand h) [] n.vars n.created) ?_
    intro cells tree htree
    exact ⟨.unary op tree, fun _ => rfl, fun cells hcells => by simp [tree?, hcells]⟩
  | binary op left right =>
    refine readsAs_infix hn hkeeps (readsAs_left hn (readsAs left h.1) hkeeps)
      (fun tree vars created => readsAs_right hn (readsAs right h.2) [tree] vars created) ?_
    intro cells first operand _ _
    exact ⟨.binary op first operand, fun _ => rfl,
      fun cells hfirst hoperand => by simp [tree?, hfirst, hoperand]⟩
  | assign target value =>
    have hkeeps : Operator.Keeps Operator.assign.precedence n.current.operators := hkeeps
    have htarget := readsAs_name (fun stacked => Operator.assign.yieldsTo stacked = true) hn h.1.2
    refine readsAs_infix hn hkeeps htarget
      (fun tree vars created => readsAs_right hn (readsAs value h.2) [tree] vars created) ?_
    intro cells first operand hfirst _
    obtain ⟨cell, _, rfl⟩ := Option.map_eq_some_iff.mp hfirst
    refine ⟨.assign cell operand, fun _ => rfl, fun cells hcell hoperand => ?_⟩
    obtain ⟨other, hother, hsame⟩ := Option.map_eq_some_iff.mp hcell
    cases hsame
    simp [tree?, hother, hoperand]
  | call key args =>
    obtain ⟨⟨_, f, hf, htakes⟩, hargs⟩ := h
    have hentries := readsAllAs args hargs (Nesting.openGroup { n with awaited := some (key, f) })
      rfl (List.cons_ne_nil _ _) rfl
    have hcall := readsAs_call (fun op => op.precedence ≤ (call key args).level) hn hf hentries
      (fun cells trees htrees => trees?_length htrees ▸ htakes)
    simpa [tokens, tree?, hf, Option.map_eq_bind, Function.comp_def] using hcall
  | group entries =>
    obtain ⟨hlength, hentries⟩ := h
    have hgroup := readsAs_group (fun op => op.precedence ≤ (group entries).level) hn
      (readsAllAs entries hentries n.openGroup rfl (List.cons_ne_nil _ _) rfl)
    simpa [tokens, tree?, map_ofGroup _ hlength] using hgroup

theorem readsAllAs (entries : List Expr) (h : AllValid functions entries) (n : Nesting)
    (hn : n.awaited = none) (houter : n.outer ≠ []) (hempty : n.current.operators = []) :
    ReadsAllAs functions n (tokensAll entries) (fun cells => trees? functions cells entries) := by
  match entries with
  | [] => exact readsAllAs_nil hempty
  | [entry] =>
    have hentry := (readsAs entry h.1 n hn (by simp [Operator.Keeps, hempty])).last hempty
    simpa [trees?, tokensAll, Option.map_eq_bind, Function.comp_def] using hentry
  | entry :: next :: rest =>
    exact (readsAs entry h.1 n hn (by simp [Operator.Keeps, hempty])).entry hn houter hempty
      fun tree vars created => readsAllAs (next :: rest) h.2 (n.extend [] [tree] vars created) hn
        houter hempty

end

/-- However an expression is spaced, the text parses to its tree over the cells that the variables
have then; names that had a cell keep it. -/
theorem parse_of_renders {e : Expr} (h : e.Valid functions) (vars : Variables) {text : String}
    (htext : Renders e.tokens text.toList) :
    ∃ tree, (parse functions vars text).outcome = .ok tree ∧
      e.tree? functions (parse functions vars text).parser.variables.cells = some tree ∧
      CellsKept vars.cells (parse functions vars text).parser.variables.cells := by
  have htokens := tokenize_of_renders h htext
  have hinside := readsAs e h (Nesting.start vars []).openGroup rfl
    (by simp [Operator.Keeps, Nesting.openGroup, Level.empty])
  obtain ⟨pending, made, last, created, tree, hread, _, hmade, hkept, htree⟩ :=
    Parser.readsAs_parenthesized (fun _ => True) rfl (hinside.last rfl)
  have hfinish : ((Nesting.start vars []).extend pending made last created).finish = .ok tree := by
    have hreduce := hmade []
    simp only [Nesting.finish, Nesting.extend, Nesting.start, Level.empty, List.append_nil] at hreduce ⊢
    rw [hreduce]
    rfl
  have hformula : Nesting.readFormula functions vars e.tokens = .ok tree := by
    have hgroup : (Nesting.start vars []).readGroup functions e.tokens =
        .ok ((Nesting.start vars []).extend pending made last created) := hread
    simp only [Nesting.readFormula, hgroup]
    exact hfinish
  refine ⟨tree, ?_, ?_⟩
  · rw [parse_outcome htokens, hformula]
    rfl
  · rw [parse_variables htokens hread hfinish]
    exact ⟨htree _ (.refl _), hkept⟩

/-- Printing an expression and parsing the text gives the tree of the expression, over the cells
that its names stand for then; a name that had a cell before keeps it. -/
theorem parse_text (functions : Functions) (vars : Variables) (e : Expr) (h : e.Valid functions) :
    ∃ tree, (parse functions vars e.text).outcome = .ok tree ∧
      e.tree? functions (parse functions vars e.text).parser.variables.cells = some tree ∧
      ∀ name cell, vars.cells.find? name = some cell →
        (parse functions vars e.text).parser.variables.cells.find? name = some cell := by
  refine parse_of_renders h vars ?_
  rw [text, String.toList_ofList]
  exact renders_flatMap_written e.tokens

theorem parse_text_product :
    ∃ tree, (parse ⟨[("f", Function.last)]⟩ .empty "(x+3)*f(1)").outcome = .ok tree ∧
      (binary .multiply (binary .add (name "x") (number "3")) (call "f" [number "1"])).tree?
        ⟨[("f", Function.last)]⟩
        (parse ⟨[("f", Function.last)]⟩ .empty "(x+3)*f(1)").parser.variables.cells = some tree := by
  have one : Lexer.IsNumber "1".toList := .whole (by decide) (List.all_eq_true.mp (by decide))
  have three : Lexer.IsNumber "3".toList := .whole (by decide) (List.all_eq_true.mp (by decide))
  have x : Lexer.IsIdentifier "x".toList := ⟨by decide, by simp⟩
  have f : Lexer.IsIdentifier "f".toList := ⟨by decide, by simp⟩
  have hvalid : (binary .multiply (binary .add (name "x") (number "3"))
      (call "f" [number "1"])).Valid ⟨[("f", Function.last)]⟩ :=
    ⟨⟨⟨x, rfl⟩, three⟩, ⟨f, Function.last, rfl, rfl⟩, one, trivial⟩
  obtain ⟨tree, hparse, htree, _⟩ := parse_text ⟨[("f", Function.last)]⟩ .empty _ hvalid
  exact ⟨tree, hparse, htree⟩

end Expr

end Formula
