import Formula.Proofs.Nesting
import Formula.Proofs.TokenPlaces

namespace Formula

open Formula.Parser

/-- What stands in an entry. A group with a key is a call of the function under that key. -/
inductive Item where
  | number (text : String)
  | name (text : String)
  | operator (op : Operator)
  | group (key : Option String) (entries : List (List Item))

/-- The tree of a group from the trees of its entries. -/
def groupTree? (functions : Functions) (key : Option String) (trees : List Tree) : Option Tree :=
  match key with
  | none => some (Tree.ofGroup trees)
  | some key => do ((← functions.find? key).apply trees).toOption

namespace Item

/-- The token of the key in front of a group. -/
def keyTokens (key : Option String) : List Token :=
  key.toList.map (fun key => ⟨.identifier, key⟩)

mutual

def tokens : Item → List Token
  | number text => [⟨.number, text⟩]
  | name text => [⟨.identifier, text⟩]
  | operator op => [.ofOperator op]
  | group key entries => keyTokens key ++ .opening :: (tokensOfEntries entries ++ [.closing])

def tokensOfEntry : List Item → List Token
  | [] => []
  | item :: rest => item.tokens ++ tokensOfEntry rest

/-- The tokens of entries, with commas between them. -/
def tokensOfEntries : List (List Item) → List Token
  | [] => []
  | [entry] => tokensOfEntry entry
  | entry :: next :: rest => tokensOfEntry entry ++ .comma :: tokensOfEntries (next :: rest)

end

mutual

/-- Reads an item behind others of its entry. -/
def read? (functions : Functions) (cells : Table String Cell) (l : Level) : Item → Option Level
  | number text => (Double.read? text).map (fun value => l.push (.const value))
  | name text =>
    if functions.contains text then none else (cells.find? text).map (fun cell => l.push (.var cell))
  | operator op => (l.pushOperator op).toOption
  | group key entries => do
    return l.push (← groupTree? functions key (← treesOfEntries? functions cells entries))

def entryLevel? (functions : Functions) (cells : Table String Cell) (l : Level) :
    List Item → Option Level
  | [] => some l
  | item :: rest => do entryLevel? functions cells (← item.read? functions cells l) rest

/-- The trees of entries. Each of them is read with no operators and no trees in front of it. -/
def treesOfEntries? (functions : Functions) (cells : Table String Cell) :
    List (List Item) → Option (List Tree)
  | [] => some []
  | entry :: rest => do
    let l ← (← entryLevel? functions cells (.empty none) entry).endEntry.toOption
    return l.trees.reverse ++ (← treesOfEntries? functions cells rest)

end

variable {functions : Functions} {cells : Table String Cell}

theorem tokensOfEntry_snoc (entry : List Item) (item : Item) :
    tokensOfEntry (entry ++ [item]) = tokensOfEntry entry ++ item.tokens := by
  induction entry with
  | nil => simp [tokensOfEntry]
  | cons first rest ih => simp [tokensOfEntry, ih]

theorem tokensOfEntries_snoc (entries : List (List Item)) (entry : List Item) :
    tokensOfEntries (entries ++ [entry]) =
      entries.flatMap (fun ended => tokensOfEntry ended ++ [.comma]) ++ tokensOfEntry entry := by
  induction entries with
  | nil => simp [tokensOfEntries]
  | cons first rest ih =>
    cases rest with
    | nil => simp [tokensOfEntries]
    | cons second rest => simpa [tokensOfEntries] using ih

theorem entryLevel?_snoc {entry : List Item} {item : Item} {l read next : Level}
    (hentry : entryLevel? functions cells l entry = some read)
    (hitem : item.read? functions cells read = some next) :
    entryLevel? functions cells l (entry ++ [item]) = some next := by
  induction entry generalizing l with
  | nil =>
    cases hentry
    simp [entryLevel?, hitem]
  | cons first rest ih =>
    obtain ⟨middle, hfirst, hrest⟩ := Option.bind_eq_some_iff.mp hentry
    simp [entryLevel?, hfirst, ih hrest]

theorem treesOfEntries?_snoc {entries : List (List Item)} {entry : List Item} {l ended : Level}
    {trees : List Tree} (hentries : treesOfEntries? functions cells entries = some trees)
    (hentry : entryLevel? functions cells (.empty none) entry = some l)
    (hended : l.endEntry = .ok ended) :
    treesOfEntries? functions cells (entries ++ [entry]) = some (trees ++ ended.trees.reverse) := by
  induction entries generalizing trees with
  | nil =>
    cases hentries
    simp [treesOfEntries?, hentry, hended, Except.toOption]
  | cons first rest ih =>
    obtain ⟨read, hread, hmore⟩ := Option.bind_eq_some_iff.mp hentries
    obtain ⟨done, hdone, hmore⟩ := Option.bind_eq_some_iff.mp hmore
    obtain ⟨others, hothers, htrees⟩ := Option.bind_eq_some_iff.mp hmore
    cases htrees
    simp [treesOfEntries?, hread, hdone, ih hothers]

end Item

end Formula
