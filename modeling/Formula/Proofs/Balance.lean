import Formula.Proofs.NestingSteps

namespace Formula

open Formula.Parser

/-- How many groups are open behind a token, with so many in front of it. -/
def depthBehind (depth : Nat) (t : Token) : Option Nat :=
  match t.kind with
  | .opening => some (depth + 1)
  | .closing => if depth = 0 then none else some (depth - 1)
  | _ => some depth

/-- Each parenthesis has its partner. -/
def Balanced (tokens : List Token) : Prop :=
  tokens.foldlM depthBehind 0 = some 0

theorem balanced_split {first rest : List Token} (h : Balanced (first ++ rest)) :
    ∃ depth, first.foldlM depthBehind 0 = some depth ∧ rest.foldlM depthBehind depth = some 0 := by
  rw [Balanced, List.foldlM_append] at h
  exact Option.bind_eq_some_iff.mp h

namespace Parser

/-- All levels from the innermost one on. -/
def Nesting.levels (n : Nesting) : List Level :=
  n.current :: n.outer

/-- So many levels inside one that belongs to a call or to none, which has others around it. -/
def Nesting.Inside (n : Nesting) (depth : Nat) (call : Option (String × Function))
    (base : List Level) : Prop :=
  ∃ inner bottom, n.levels = inner ++ bottom :: base ∧ inner.length = depth ∧ bottom.call = call

namespace Nesting

variable {functions : Functions} {n next : Nesting} {t : Token} {depth : Nat}
  {call : Option (String × Function)} {base : List Level}

theorem inside_openGroup (n : Nesting) : n.openGroup.Inside 0 n.awaited n.levels :=
  ⟨[], .empty n.awaited, rfl, rfl, rfl⟩

/-- Work on the innermost level does not change how deep it is. -/
theorem Inside.replace (h : n.Inside depth call base) (houter : next.outer = n.outer)
    (hcall : next.current.call = n.current.call) : next.Inside depth call base := by
  obtain ⟨inner, bottom, hlevels, hlength, hbottom⟩ := h
  cases inner with
  | nil =>
    obtain ⟨hcurrent, hbase⟩ := List.cons.inj hlevels
    exact ⟨[], next.current, by simp [levels, houter, hbase], hlength, by
      rw [hcall, hcurrent, hbottom]⟩
  | cons first inner =>
    obtain ⟨_, hrest⟩ := List.cons.inj hlevels
    exact ⟨next.current :: inner, bottom, by simp [levels, houter, hrest], hlength, hbottom⟩

theorem Inside.accept {depth' : Nat} (h : n.Inside depth call base)
    (hdepth : depthBehind depth t = some depth') (hnext : n.accept functions t = .ok next) :
    next.Inside depth' call base := by
  cases accepts_of_ok hnext with
  | opening hk =>
    obtain ⟨inner, bottom, hlevels, hlength, hbottom⟩ := h
    simp only [depthBehind, hk, Option.some.injEq] at hdepth
    refine ⟨.empty n.awaited :: inner, bottom, ?_, by simp [hlength, hdepth], hbottom⟩
    rw [List.cons_append, ← hlevels]
    rfl
  | @closing made tree level outer hk _ houter =>
    simp only [depthBehind, hk, Option.ite_none_left_eq_some, Option.some.injEq] at hdepth
    obtain ⟨inner, bottom, hlevels, hlength, hbottom⟩ := h
    cases inner with
    | nil => exact absurd hlength.symm hdepth.1
    | cons first inner =>
      obtain ⟨_, hrest⟩ := List.cons.inj hlevels
      have hinner : inner.length = depth' := by
        have hpred := hdepth.2
        simp only [List.length_cons] at hlength
        omega
      -- The level around the group is the innermost one now, with one tree more.
      have haround : Inside ⟨none, level, outer, n.vars, n.created⟩ depth' call base :=
        ⟨inner, bottom, houter.symm.trans hrest, hinner, hbottom⟩
      exact haround.replace rfl rfl
  | comma hk | number hk | key hk | name hk =>
    have hsame : depth = depth' := by simpa [depthBehind, hk] using hdepth
    exact hsame ▸ h.replace rfl rfl
  | operator hk _ _ hlevel =>
    have hsame : depth = depth' := by simpa [depthBehind, hk] using hdepth
    obtain ⟨_, _, hl⟩ := bind_eq_ok hlevel
    cases hl
    exact hsame ▸ h.replace rfl rfl

/-- Tokens that end no more groups than they open stay inside the same level. -/
theorem Inside.acceptAll {tokens : List Token} {last : Nat} (h : n.Inside depth call base)
    (hdepth : tokens.foldlM depthBehind depth = some last)
    (hnext : n.acceptAll functions tokens = .ok next) : next.Inside last call base := by
  induction tokens generalizing n depth with
  | nil =>
    cases hnext
    cases hdepth
    exact h
  | cons t tokens ih =>
    obtain ⟨m, ht, hrest⟩ := bind_eq_ok hnext
    obtain ⟨middle, hmiddle, hlast⟩ := Option.bind_eq_some_iff.mp hdepth
    exact ih (h.accept hmiddle ht) hlast hrest

theorem Inside.outer_length (h : n.Inside depth call base) :
    n.outer.length = depth + base.length := by
  obtain ⟨inner, bottom, hlevels, hlength, _⟩ := h
  have htotal := congrArg List.length hlevels
  simp only [levels, List.length_cons, List.length_append] at htotal
  omega

theorem Inside.of_zero (h : n.Inside 0 call base) : n.current.call = call ∧ n.outer = base := by
  obtain ⟨inner, bottom, hlevels, hlength, hbottom⟩ := h
  cases List.eq_nil_of_length_eq_zero hlength
  obtain ⟨hcurrent, houter⟩ := List.cons.inj hlevels
  exact ⟨by rw [hcurrent, hbottom], houter⟩

end Nesting

/-- The innermost group may end, with these trees in it. -/
structure Nesting.Ends (n : Nesting) (entries : List Tree) : Prop where
  awaited : n.awaited = none
  reduced : reduceAll n.current.operators n.current.trees = .ok entries.reverse

variable {functions : Functions} {vars : Variables} {created : List String} {tokens : List Token}
  {n : Nesting}

/-- The levels around the innermost one are those of the open groups and the outermost one. -/
theorem outer_length {first : List Token} {depth : Nat}
    (h : (Nesting.start vars []).openGroup.acceptAll functions first = .ok n)
    (hdepth : first.foldlM depthBehind 0 = some depth) : n.outer.length = depth + 1 :=
  ((Nesting.inside_openGroup _).acceptAll hdepth h).outer_length

/-- Balanced tokens leave open the group in which they stand, with the outermost level around it. -/
theorem acceptAll_balanced (hbalanced : Balanced tokens)
    (h : (Nesting.start vars created).openGroup.acceptAll functions tokens = .ok n) :
    n.current.call = none ∧ n.outer = [.empty none] :=
  ((Nesting.inside_openGroup (Nesting.start vars created)).acceptAll hbalanced h).of_zero

theorem outer_of_formula (hbalanced : Balanced tokens)
    (h : (Nesting.start vars []).openGroup.acceptAll functions (tokens ++ [Token.closing]) = .ok n) :
    n.outer = [] := by
  obtain ⟨m, htokens, hlast⟩ := Nesting.acceptAll_snoc_ok h
  obtain ⟨_, _, level, outer, _, houter, _, _, rfl⟩ := Nesting.closing_of_ok hlast
  cases houter.symm.trans (acceptAll_balanced hbalanced htokens).2
  rfl

/-- Balanced tokens are read as a group exactly if reading them leaves a group that may end. -/
theorem readGroup_ok_iff (hbalanced : Balanced tokens) :
    (Nesting.start vars created).readGroup functions tokens = .ok n ↔
      ∃ m entries, (Nesting.start vars created).openGroup.acceptAll functions tokens = .ok m ∧
        m.Ends entries ∧
        n = ⟨none, (Level.empty none).push (Tree.ofGroup entries), [], m.vars, m.created⟩ := by
  have hread : (Nesting.start vars created).readGroup functions tokens =
      (Nesting.start vars created).openGroup.acceptAll functions (tokens ++ [Token.closing]) :=
    rfl
  rw [hread]
  constructor
  · intro h
    obtain ⟨m, htokens, hlast⟩ := Nesting.acceptAll_snoc_ok h
    obtain ⟨hcall, houter⟩ := acceptAll_balanced hbalanced htokens
    obtain ⟨made, tree, level, outer, hawaited, hlevels, hmade, htree, rfl⟩ :=
      Nesting.closing_of_ok hlast
    cases hlevels.symm.trans houter
    refine ⟨m, made.reverse, htokens, ⟨hawaited, by simpa using hmade⟩, ?_⟩
    have hgroup : tree = Tree.ofGroup made.reverse := by
      simpa [Level.result, hcall] using htree.symm
    rw [hawaited, hgroup]
  · rintro ⟨m, entries, htokens, ⟨hawaited, hreduced⟩, rfl⟩
    obtain ⟨hcall, houter⟩ := acceptAll_balanced hbalanced htokens
    obtain ⟨awaited, ⟨call, operators, trees⟩, outer, last, names⟩ := m
    cases hawaited
    cases hcall
    cases houter
    have hresult : (Level.mk none [] entries.reverse).result = .ok (Tree.ofGroup entries) := by
      simp [Level.result]
    have hlast : (Nesting.mk none ⟨none, operators, trees⟩ [.empty none] last names).endGroup =
        .ok ⟨none, (Level.empty none).push (Tree.ofGroup entries), [], last, names⟩ :=
      Nesting.endGroup_reduce hreduced hresult
    rw [Nesting.acceptAll_append htokens]
    exact Nesting.acceptAll_cons hlast

theorem readFormula_ok_iff {tree : Tree} (hbalanced : Balanced tokens) :
    Nesting.readFormula functions vars tokens = .ok tree ↔
      ∃ m entries, (Nesting.start vars []).openGroup.acceptAll functions tokens = .ok m ∧
        m.Ends entries ∧ tree = Tree.ofGroup entries := by
  constructor
  · intro h
    obtain ⟨n, hread, hfinish⟩ := bind_eq_ok h
    obtain ⟨m, entries, htokens, hends, rfl⟩ := (readGroup_ok_iff hbalanced).mp hread
    cases hfinish
    exact ⟨m, entries, htokens, hends, rfl⟩
  · rintro ⟨m, entries, htokens, hends, rfl⟩
    have hread := (readGroup_ok_iff hbalanced).mpr ⟨m, entries, htokens, hends, rfl⟩
    rw [Nesting.readFormula, hread]
    rfl

end Parser

end Formula
