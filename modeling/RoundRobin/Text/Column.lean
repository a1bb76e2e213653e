/-!
# Columns

Tables are laid out by filling each cell with spaces on its right up to the width of its column. A
cell that is too wide keeps its full text and pushes the next cells to the right.
-/

namespace RoundRobin.Text

/-- The text followed by as many spaces as it lacks to the width of the column. -/
def column (width : Nat) (text : String) : String :=
  text ++ String.ofList (List.replicate (width - text.length) ' ')

theorem length_column (width : Nat) (text : String) :
    (column width text).length = max width text.length := by
  simp only [column, String.length_append, String.length_ofList, List.length_replicate]
  omega

end RoundRobin.Text
