import Formula.Error

namespace Formula

namespace Tree

/-- An assignment, which takes a cell on its left. -/
def assignTo (left right : Tree) : Except ParseError Tree :=
  match left with
  | var target => .ok (assign target right)
  | _ => .error (.notAssignable left)

/-- What a group without a function stands for: nothing is 0, one entry is itself, and of more
the last one counts after all have been evaluated. -/
def ofGroup : List Tree → Tree
  | [] => const 0
  | [tree] => tree
  | trees => call Function.last trees

end Tree

/-- A call of the function, if it takes so many arguments. -/
def Function.apply (f : Function) (args : List Tree) : Except ParseError Tree :=
  if f.takes args.length then .ok (.call f args) else .error (.wrongCount f args.length)

end Formula
