import Formula.Proofs.CellsKept
import Formula.Proofs.Items
import Formula.Proofs.Tallies

namespace Formula.Parser

/-- A group part way through: the entries that have ended with their trees, and the items of the
last entry with what they are read as. -/
structure OpenGroup where
  call : Option (String × Function)
  ended : List (List Item)
  below : List Tree
  items : List Item
  entry : Level

def callTokens (call : Option (String × Function)) : List Token :=
  Item.keyTokens (call.map Prod.fst)

def CallFound (functions : Functions) (call : Option (String × Function)) : Prop :=
  ∀ key f, call = some (key, f) → functions.find? key = some f

namespace OpenGroup

def start (call : Option (String × Function)) : OpenGroup :=
  ⟨call, [], [], [], .empty none⟩

def level (g : OpenGroup) : Level :=
  ⟨g.call, g.entry.operators, g.entry.trees ++ g.below⟩

/-- One more item, read to this level. -/
def add (g : OpenGroup) (item : Item) (entry : Level) : OpenGroup :=
  { g with items := g.items ++ [item], entry := entry }

def entries (g : OpenGroup) : List (List Item) :=
  g.ended ++ [g.items]

def tokens (g : OpenGroup) : List Token :=
  callTokens g.call ++ .opening :: Item.tokensOfEntries g.entries

/-- The item of the group, once it has ended. -/
def item (g : OpenGroup) : Item :=
  .group (g.call.map Prod.fst) g.entries

/-- The group's parts are read as it says, and the operators that wait in its last entry leave no
other entry short of trees. -/
structure Reads (functions : Functions) (cells : Table String Cell) (g : OpenGroup) : Prop where
  call : CallFound functions g.call
  ended : Item.treesOfEntries? functions cells g.ended = some g.below.reverse
  items : Item.entryLevel? functions cells (.empty none) g.items = some g.entry
  enough : infixes g.entry.operators ≤ g.entry.trees.length

/-- The tokens of groups within each other, the innermost first. -/
def tokensOfAll : List OpenGroup → List Token
  | [] => []
  | g :: outer => tokensOfAll outer ++ g.tokens

variable {functions : Functions} {cells : Table String Cell} {g : OpenGroup}

theorem reads_start {call : Option (String × Function)} (h : CallFound functions call) :
    (start call).Reads functions cells :=
  ⟨h, rfl, rfl, Nat.le_refl _⟩

theorem tokens_start (call : Option (String × Function)) :
    (start call).tokens = callTokens call ++ [.opening] :=
  rfl

theorem tokens_add (g : OpenGroup) (item : Item) (entry : Level) :
    (g.add item entry).tokens = g.tokens ++ item.tokens := by
  simp [tokens, add, entries, Item.tokensOfEntries_snoc, Item.tokensOfEntry_snoc]

theorem tokens_item (g : OpenGroup) : g.item.tokens = g.tokens ++ [.closing] := by
  simp [item, tokens, Item.tokens, callTokens]

theorem Reads.add (h : g.Reads functions cells) {item : Item} {entry : Level}
    (hitem : item.read? functions cells g.entry = some entry)
    (henough : infixes entry.operators ≤ entry.trees.length) :
    (g.add item entry).Reads functions cells :=
  ⟨h.call, h.ended, Item.entryLevel?_snoc h.items hitem, henough⟩

/-- A tree more in the entry. -/
theorem Reads.push (h : g.Reads functions cells) {item : Item} {tree : Tree}
    (hitem : item.read? functions cells g.entry = some (g.entry.push tree)) :
    (g.add item (g.entry.push tree)).Reads functions cells := by
  refine h.add hitem ?_
  have henough := h.enough
  simp only [Level.push, List.length_cons]
  omega

/-- Operators with enough trees in their entry take those alone. -/
theorem endEntry_own {made : List Tree}
    (henough : g.entry.operators ≠ [] → infixes g.entry.operators + 1 ≤ g.entry.trees.length)
    (hmade : reduceAll g.level.operators g.level.trees = .ok made) :
    ∃ own, g.entry.endEntry = .ok ⟨g.entry.call, [], own⟩ ∧ made = own ++ g.below := by
  obtain ⟨own, hown, hsplit⟩ := reduceAll_own henough hmade
  refine ⟨own, ?_, hsplit⟩
  simp only [Level.endEntry, hown]
  rfl

/-- The trees of all entries of a group whose last entry ends. -/
theorem Reads.trees (h : g.Reads functions cells) {made : List Tree}
    (henough : g.entry.operators ≠ [] → infixes g.entry.operators + 1 ≤ g.entry.trees.length)
    (hmade : reduceAll g.level.operators g.level.trees = .ok made) :
    Item.treesOfEntries? functions cells g.entries = some made.reverse := by
  obtain ⟨own, hown, rfl⟩ := endEntry_own henough hmade
  rw [entries, Item.treesOfEntries?_snoc h.ended h.items hown, List.reverse_append]

/-- What follows a comma is an entry of its own. -/
def nextEntry (g : OpenGroup) (made : List Tree) : OpenGroup :=
  ⟨g.call, g.entries, made, [], .empty none⟩

theorem tokens_nextEntry (g : OpenGroup) (made : List Tree) :
    (g.nextEntry made).tokens = g.tokens ++ [.comma] := by
  simp only [tokens, nextEntry, entries]
  rw [Item.tokensOfEntries_snoc (g.ended ++ [g.items]), Item.tokensOfEntries_snoc]
  simp [Item.tokensOfEntry]

theorem Reads.nextEntry (h : g.Reads functions cells) {made : List Tree}
    (htrees : Item.treesOfEntries? functions cells g.entries = some made.reverse) :
    (g.nextEntry made).Reads functions cells :=
  ⟨h.call, htrees, rfl, Nat.le_refl _⟩

theorem Reads.read_item (h : g.Reads functions cells) {made : List Tree} {tree : Tree}
    (htrees : Item.treesOfEntries? functions cells g.entries = some made.reverse)
    (htree : (Level.mk g.call [] made).result = .ok tree) (l : Level) :
    g.item.read? functions cells l = some (l.push tree) := by
  have hgroup : groupTree? functions (g.call.map Prod.fst) made.reverse = some tree := by
    cases hcall : g.call with
    | none =>
      rw [hcall] at htree
      cases htree
      rfl
    | some pair =>
      obtain ⟨key, f⟩ := pair
      rw [hcall] at htree
      simp only [Level.result] at htree
      simp [groupTree?, h.call key f hcall, htree, Except.toOption]
  simp [item, Item.read?, htrees, hgroup]

/-- An operator in front of which its entry has a tree for each infix operator and one more, or a
prefix operator, comes to wait in its entry and takes trees of that entry alone. -/
theorem Reads.operator (h : g.Reads functions cells) {op : Operator} {next : Level}
    (hready : op.isUnary = false → infixes g.entry.operators + 1 ≤ g.entry.trees.length)
    (hnext : g.level.pushOperator op = .ok next) :
    ∃ entry, (g.add (.operator op) entry).Reads functions cells ∧
      (g.add (.operator op) entry).level = next := by
  obtain ⟨made, hmade, hlevel⟩ := bind_eq_ok hnext
  have htaken : g.entry.operators.takeWhile op.yieldsTo ≠ [] →
      infixes (g.entry.operators.takeWhile op.yieldsTo) + 1 ≤ g.entry.trees.length := by
    intro hne
    cases hunary : op.isUnary with
    | true => exact absurd (Level.takeWhile_of_isUnary hunary _) hne
    | false =>
      have hcount := hready hunary
      have hsplit := infixes_split op.yieldsTo g.entry.operators
      omega
  obtain ⟨own, hown, rfl⟩ := reduceAll_own htaken hmade
  have hentry : g.entry.pushOperator op =
      .ok ⟨g.entry.call, op :: g.entry.operators.dropWhile op.yieldsTo, own⟩ := by
    simp only [Level.pushOperator, hown]
    rfl
  have hitem : (Item.operator op).read? functions cells g.entry =
      some ⟨g.entry.call, op :: g.entry.operators.dropWhile op.yieldsTo, own⟩ := by
    simp [Item.read?, hentry, Except.toOption]
  refine ⟨_, h.add hitem ?_, ?_⟩
  · have hlength := Level.pushOperator_length hentry
    have henough := h.enough
    cases hunary : op.isUnary with
    | true =>
      have hnone : infixes [op] = 0 := by simp [infixes, hunary]
      simp only at hlength ⊢
      omega
    | false =>
      have hone : infixes [op] = 1 := by simp [infixes, hunary]
      have hcount := hready hunary
      simp only at hlength ⊢
      omega
  · cases hlevel
    rfl

end OpenGroup

end Formula.Parser
