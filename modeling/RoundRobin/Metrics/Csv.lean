import RoundRobin.Metrics
import RoundRobin.Storage

/-!
# The table of results

The completed processes as a file of lines with fields between commas: a line of headings, then one
line per record in the order of the process numbers. Every line is ended by a line feed. The file
ends before the first record with an integer too long to be written.
-/

namespace RoundRobin.Metrics

/-- The fields of a record in the order of the headings. -/
def recordFields (r : Record) : List Int :=
  [r.pid, r.release, r.start, r.finish, r.burst, r.turnaround, r.waiting, r.response]

def csvHeader : String := "PID,Release,Start,End,Burst,Turnaround,Waiting,Response"

/-- The line of a record. -/
def csvLine (r : Record) : Except Fault String :=
  written (recordFields r) (String.intercalate "," ((recordFields r).map Integer.text))

/-- The lines of the records up to the first that cannot be written. -/
def csvLines (m : Metrics) : List String × Except Fault Unit := upToFault (m.byPid.map csvLine)

/-- The text of the file. -/
def csv (m : Metrics) : String := String.join ((csvHeader :: m.csvLines.1).map (· ++ "\n"))

/-- The storage after the file was written. -/
def saveCsv (m : Metrics) (s : Storage) (path : String) : Except FileFault Storage :=
  s.write path (Text.encode m.csv.toList)

end RoundRobin.Metrics
