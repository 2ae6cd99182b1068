import Formula.Proofs.ParallelRuns
import Formula.Proofs.SoundVariables

namespace Formula.Parser

/-- Tokens are read over variables as the entries of a group, with others behind them. -/
def Reads (functions : Functions) (vars : Variables) (tokens : List Token) (entries : List Tree)
    (behind : Variables) : Prop :=
  ∃ n : Nesting, (Nesting.start vars []).openGroup.acceptAll functions tokens = .ok n ∧
    n.Ends entries ∧ n.vars = behind

variable {functions : Functions} {vars vars' middle behind : Variables}
  {first second tokens : List Token} {entries more : List Tree}

theorem readFormula_reads (hbalanced : Balanced tokens) {tree : Tree} :
    Nesting.readFormula functions vars tokens = .ok tree ↔ ∃ entries behind,
      Reads functions vars tokens entries behind ∧ tree = Tree.ofGroup entries := by
  rw [readFormula_ok_iff hbalanced]
  constructor
  · rintro ⟨m, entries, htokens, hends, rfl⟩
    exact ⟨entries, m.vars, ⟨m, htokens, hends, rfl⟩, rfl⟩
  · rintro ⟨entries, behind, ⟨m, htokens, hends, _⟩, rfl⟩
    exact ⟨m, entries, htokens, hends, rfl⟩

/-- Tokens with these entries are a formula with the tree of a group. -/
theorem Reads.formula (hbalanced : Balanced tokens)
    (h : Reads functions vars tokens entries behind) :
    ∃ n : Nesting, (Nesting.start vars []).readGroup functions tokens = .ok n ∧
      n.finish = .ok (Tree.ofGroup entries) ∧ n.vars = behind := by
  obtain ⟨m, htokens, hends, hvars⟩ := h
  exact ⟨_, (readGroup_ok_iff hbalanced).mpr ⟨m, entries, htokens, hends, rfl⟩, rfl, hvars⟩

section Variables

theorem congruence_of_cells {S : Variables → Variables → Prop}
    (hS : ∀ vars vars' name, S vars vars' →
      (vars.resolve name).1 = (vars'.resolve name).1 ∧
        S (vars.resolve name).2 (vars'.resolve name).2) :
    Congruence (fun tree tree' => tree = tree') S where
  const _ := rfl
  unary h := by rw [h]
  binary hleft hright := by rw [hleft, hright]
  assign := by
    rintro left _ right _ tree rfl rfl h
    exact ⟨tree, h, rfl⟩
  call h := by
    rw [List.forall₂_eq_eq_eq] at h
    rw [h]
  name name h := ⟨congrArg Tree.var (hS _ _ name h).1, (hS _ _ name h).2⟩

/-- A tree is a cell only where the other one is. Assignments ask for nothing else. -/
theorem congruence_cells :
    Congruence (fun tree tree' => ∀ cell, tree = .var cell → ∃ other, tree' = .var other)
      (fun _ _ => True) where
  const _ := by simp
  unary _ := by simp
  binary _ _ := by simp
  assign := by
    intro left left' right right' tree hleft _ h
    cases left with
    | var cell =>
      obtain ⟨other, rfl⟩ := hleft cell rfl
      exact ⟨_, rfl, by cases h; simp⟩
    | _ => cases h
  call _ := by simp
  name _ _ := ⟨fun _ _ => ⟨_, rfl⟩, trivial⟩

/-- Reading over other variables, side by side with a reading. -/
theorem Reads.alike {R : Tree → Tree → Prop} {S : Variables → Variables → Prop}
    (hR : Congruence R S) (hvars : S vars vars') (hbalanced : Balanced tokens)
    (h : Reads functions vars tokens entries behind) :
    ∃ entries' behind', Reads functions vars' tokens entries' behind' ∧
      List.Forall₂ R entries entries' ∧ S behind behind' := by
  obtain ⟨n, htokens, hends, rfl⟩ := h
  have hstart : Nesting.Alike R S [] [.empty none] [.empty none] 0
      (Nesting.start vars []).openGroup (Nesting.start vars' []).openGroup :=
    ⟨rfl, .bottom ⟨rfl, rfl, [], .nil, rfl⟩, hvars⟩
  obtain ⟨n', htokens', halike⟩ := hstart.acceptAll hR (by simp) hbalanced htokens
  obtain ⟨entries', hentries, hends'⟩ := halike.ends hR hends
  exact ⟨entries', n'.vars, ⟨n', htokens', hends', rfl⟩, hentries, halike.vars⟩

/-- Whether tokens are accepted does not depend on the variables. -/
theorem Reads.anywhere (hbalanced : Balanced tokens)
    (h : Reads functions vars tokens entries behind) (vars' : Variables) :
    ∃ entries' behind', Reads functions vars' tokens entries' behind' := by
  obtain ⟨entries', behind', hreads, _⟩ := h.alike congruence_cells trivial hbalanced
  exact ⟨entries', behind', hreads⟩

theorem Reads.sameCells (hbalanced : Balanced tokens) (hvars : vars.SameCells vars')
    (h : Reads functions vars tokens entries behind) :
    ∃ behind', Reads functions vars' tokens entries behind' ∧ behind.SameCells behind' := by
  obtain ⟨entries', behind', hreads, hentries, hbehind⟩ :=
    h.alike (congruence_of_cells (fun _ _ name h => h.resolve name)) hvars hbalanced
  rw [List.forall₂_eq_eq_eq] at hentries
  exact ⟨behind', hentries ▸ hreads, hbehind⟩

end Variables

/-- Where no operator waits tokens add their entries to the trees that are there. -/
theorem Reads.onto {n : Nesting} {trees : List Tree} (hsecond : Balanced second)
    (hawaited : n.awaited = none) (hcurrent : n.current = ⟨none, [], trees⟩)
    (houter : n.outer = [.empty none]) (h : Reads functions n.vars second more behind) :
    ∃ last, n.acceptAll functions second = .ok last ∧ last.Ends (trees.reverse ++ more) ∧
      last.vars = behind := by
  obtain ⟨m, htokens, hends, rfl⟩ := h
  have hstart : Nesting.Alike (fun tree tree' => tree = tree') (fun vars vars' => vars = vars')
      trees [.empty none] [.empty none] 0 (Nesting.start n.vars []).openGroup n := by
    refine ⟨hawaited, ?_, rfl⟩
    rw [Nesting.levels, Nesting.levels, hcurrent, houter]
    exact .bottom ⟨rfl, rfl, [], .nil, rfl⟩
  have hR : Congruence (fun tree tree' : Tree => tree = tree')
      (fun vars vars' : Variables => vars = vars') :=
    congruence_of_cells (by rintro vars _ name rfl; exact ⟨rfl, rfl⟩)
  obtain ⟨last, hlast, halike⟩ := hstart.acceptAll hR (by simp) hsecond htokens
  obtain ⟨added, hadded, hendsLast⟩ := halike.ends hR hends
  rw [List.forall₂_eq_eq_eq] at hadded
  rw [← hadded] at hendsLast
  exact ⟨last, hlast, hendsLast, halike.vars.symm⟩

/-- Behind a comma tokens add their entries to those in front of it. -/
theorem Reads.comma (hfirst : Balanced first) (hsecond : Balanced second)
    (h : Reads functions vars first entries middle)
    (hmore : Reads functions middle second more behind) :
    Reads functions vars (first ++ Token.comma :: second) (entries ++ more) behind := by
  obtain ⟨n, htokens, hends, rfl⟩ := h
  obtain ⟨hcall, houter⟩ := acceptAll_balanced hfirst htokens
  have hcomma : n.accept functions Token.comma =
      .ok { n with current := ⟨none, [], entries.reverse⟩ } := by
    rw [← hcall]
    exact Nesting.Accepts.ok (.comma rfl hends.awaited (by simp [houter]) hends.reduced)
  obtain ⟨last, hlast, hendsLast, hbehind⟩ := hmore.onto
    (n := { n with current := ⟨none, [], entries.reverse⟩ }) hsecond hends.awaited rfl houter
  rw [List.reverse_reverse] at hendsLast
  refine ⟨last, ?_, hendsLast, hbehind⟩
  rw [Nesting.acceptAll_append htokens, Nesting.acceptAll_cons hcomma, hlast]

namespace Nesting

variable {n next : Nesting} {t : Token} {depth depth' last : Nat}

/-- Behind a token that is no comma a group is open inside, or the group is not blank. -/
theorem accept_begins (hk : t.kind ≠ .comma) (hdepth : depthBehind depth t = some depth')
    (h : n.accept functions t = .ok next) : depth' = 0 → ¬ next.IsBlank := by
  intro hzero hblank
  obtain ⟨hawaited, _, hoperators, htrees⟩ := hblank
  cases accepts_of_ok h with
  | opening hk =>
    obtain rfl : depth + 1 = depth' := by simpa [depthBehind, hk] using hdepth
    cases hzero
  | closing | number | name => exact absurd htrees (List.cons_ne_nil _ _)
  | comma hcomma => exact hk hcomma
  | key => cases hawaited
  | operator _ _ _ hlevel => exact Level.pushOperator_waits hlevel hoperators

/-- A group that is not blank is so from then on. -/
theorem accept_begun (hbegun : depth = 0 → ¬ n.IsBlank)
    (hdepth : depthBehind depth t = some depth') (h : n.accept functions t = .ok next) :
    depth' = 0 → ¬ next.IsBlank := by
  by_cases hk : t.kind = .comma
  · obtain rfl : depth = depth' := by simpa [depthBehind, hk] using hdepth
    cases accepts_of_ok h with
    | comma _ _ _ hmade =>
      intro hzero hblank
      obtain ⟨hawaited, hcall, _, htrees⟩ := hblank
      obtain ⟨hoperators, hown⟩ := (reduceAll_eq_nil_iff hmade).mp htrees
      exact hbegun hzero ⟨hawaited, hcall, hoperators, hown⟩
    | opening hother | closing hother | number hother | key hother | name hother
    | operator hother => simp [hk] at hother
  · exact accept_begins hk hdepth h

theorem acceptAll_begun (hbegun : (depth = 0 → ¬ n.IsBlank) ∨ ∃ t ∈ tokens, t.kind ≠ .comma)
    (hdepth : tokens.foldlM depthBehind depth = some last)
    (h : n.acceptAll functions tokens = .ok next) : last = 0 → ¬ next.IsBlank := by
  induction tokens generalizing n depth with
  | nil =>
    cases h
    cases hdepth
    simpa using hbegun
  | cons t tokens ih =>
    obtain ⟨m, ht, hrest⟩ := bind_eq_ok h
    obtain ⟨middle, hmiddle, hlast⟩ := Option.bind_eq_some_iff.mp hdepth
    refine ih ?_ hlast hrest
    rcases hbegun with hbegun | ⟨u, hu, hk⟩
    · exact .inl (accept_begun hbegun hmiddle ht)
    · rcases List.mem_cons.mp hu with rfl | hu
      · exact .inl (accept_begins hk hmiddle ht)
      · exact .inr ⟨u, hu, hk⟩

end Nesting

/-- A group in which more than commas stand has entries. -/
theorem Reads.ne_nil (hbalanced : Balanced tokens) (hvalue : ∃ t ∈ tokens, t.kind ≠ .comma)
    (h : Reads functions vars tokens entries behind) : entries ≠ [] := by
  rintro rfl
  obtain ⟨n, htokens, hends, _⟩ := h
  obtain ⟨hcall, _⟩ := acceptAll_balanced hbalanced htokens
  obtain ⟨hoperators, htrees⟩ := (Nesting.reduceAll_eq_nil_iff hends.reduced).mp rfl
  exact Nesting.acceptAll_begun (.inr hvalue) hbalanced htokens rfl
    ⟨hends.awaited, hcall, hoperators, htrees⟩

/-- Reading makes cells for names that are missing, and no cell holds anything else than before. -/
theorem Reads.grown (hvars : vars.Sound) (h : Reads functions vars tokens entries behind) :
    vars.Grown behind := by
  obtain ⟨n, htokens, _, rfl⟩ := h
  have hstart : (Nesting.start vars []).openGroup.vars.Sound := hvars
  exact Nesting.acceptAll_grown hstart htokens

/-- The cells in entries are cells of names. -/
theorem Reads.below (hvars : vars.Sound) (h : Reads functions vars tokens entries behind) :
    ∀ entry ∈ entries, entry.Below behind.next := by
  obtain ⟨n, htokens, hends, rfl⟩ := h
  have hread : (Nesting.start vars []).acceptAll functions (Token.opening :: tokens) = .ok n :=
    htokens
  have hbelow := Nesting.reduced_below hvars hread hends.reduced
  exact fun entry hentry => hbelow entry (List.mem_reverse.mpr hentry)

end Formula.Parser
