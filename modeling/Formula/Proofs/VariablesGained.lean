import Formula.Proofs.DanglingOperators
import Formula.Proofs.MappedRuns
import Formula.Proofs.Sequences
import Formula.Record

namespace Formula

open Formula.Parser

namespace Variables

/-- The names that have no cell yet, each once, in order of first occurrence. -/
def missing (vars : Variables) (names : List String) : List String :=
  (names.filter (fun name => !vars.cells.contains name)).eraseDups

variable {vars : Variables} {names more : List String} {name : String} {cell : Cell}

end Variables

namespace Parser.Nesting

variable {functions : Functions} {n next : Nesting} {t : Token} {tokens : List Token}

end Parser.Nesting

section Texts

variable {functions : Functions} {vars : Variables} {text : String} {tokens : List Token}

end Texts

end Formula
