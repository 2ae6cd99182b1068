import Formula.Table

namespace Formula

/-- A place for a value. It has an identity of its own and perhaps a name to be shown under. -/
structure Cell where
  id : Nat
  name : Option String
deriving Repr, DecidableEq

/-- The values of cells by identity. -/
abbrev Values := Table Nat Float

namespace Values

/-- A cell never written holds 0. -/
def read (values : Values) (cell : Cell) : Float :=
  (values.find? cell.id).getD 0

def write (values : Values) (cell : Cell) (value : Float) : Values :=
  values.insert cell.id value

theorem read_write (values : Values) (cell other : Cell) (value : Float) :
    (values.write cell value).read other =
      if other.id = cell.id then value else values.read other := by
  unfold read write
  rw [Table.find?_insert]
  split <;> rfl

end Values

/-- The cells that names stand for. Identities from `next` on are unused. -/
structure Variables where
  cells : Table String Cell
  values : Values
  next : Nat

namespace Variables

def empty : Variables := ⟨.empty, .empty, 0⟩

instance : Inhabited Variables := ⟨empty⟩

/-- A new cell that no name stands for yet. -/
def allocate (vars : Variables) (name : Option String) (value : Float) : Cell × Variables :=
  let cell : Cell := ⟨vars.next, name⟩
  (cell, { vars with values := vars.values.write cell value, next := vars.next + 1 })

/-- Lets a name stand for a cell. -/
def point (vars : Variables) (name : String) (cell : Cell) : Variables :=
  { vars with cells := vars.cells.insert name cell }

/-- The cell of a name; one that is missing is made with value 0 and shown under that name. -/
def resolve (vars : Variables) (name : String) : Cell × Variables :=
  match vars.cells.find? name with
  | some cell => (cell, vars)
  | none =>
    let (cell, vars) := vars.allocate (some name) 0
    (cell, vars.point name cell)

/-- Gives a name a new cell, shown under that name only if `named`. -/
def define (vars : Variables) (name : String) (value : Float) (named : Bool) : Variables :=
  let (cell, vars) := vars.allocate (if named then some name else none) value
  vars.point name cell

def get? (vars : Variables) (name : String) : Option Float :=
  (vars.cells.find? name).map vars.values.read

def set (vars : Variables) (cell : Cell) (value : Float) : Variables :=
  { vars with values := vars.values.write cell value }

/-- All names with their values, by ascending name. -/
def listing (vars : Variables) : List (String × Float) :=
  vars.cells.sorted.map (fun entry => (entry.1, vars.values.read entry.2))

/-- Takes a name away; its cell stays for the trees that hold it. -/
def remove (vars : Variables) (name : String) : Variables :=
  { vars with cells := vars.cells.erase name }

end Variables

end Formula
