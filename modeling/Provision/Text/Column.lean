/-!
# Columns

Cells of a table, filled with blanks to a width that counts characters. A cell wider than its column
is written in full.
-/

namespace Provision.Text

def blanks (n : Nat) : String := String.ofList (List.replicate n ' ')

/-- The cell at the left of its column. -/
def padRight (width : Nat) (cell : String) : String := cell ++ blanks (width - cell.length)

/-- The cell at the right of its column. -/
def padLeft (width : Nat) (cell : String) : String := blanks (width - cell.length) ++ cell

end Provision.Text
