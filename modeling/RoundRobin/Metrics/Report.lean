import RoundRobin.Metrics
import RoundRobin.Text.Column

/-!
# The report

The summary of a run as a table of the completed processes, followed by the averages of their
waiting and turnaround times, the utilization of the processor and the number of context switches.
Averages and percentages are binary64 numbers shown with two places. The report ends in a fault
where one of them is too large for the format, or an integer too long to be written.
-/

namespace RoundRobin.Metrics

/-- The widths of the columns of the table. -/
def columnWidths : List Nat := [5, 8, 8, 8, 12, 10, 10]

/-- A row of the table. -/
def tableRow (cells : List String) : String :=
  String.join (List.zipWith Text.column columnWidths cells)

def tableHeader : String :=
  tableRow ["PID", "Start", "End", "Burst", "Turnaround", "Waiting", "Response"]

/-- What the table says about a process. -/
def recordCells (r : Record) : List Int :=
  [r.pid, r.start, r.finish, r.burst, r.turnaround, r.waiting, r.response]

def recordRow (r : Record) : Except Fault String :=
  written (recordCells r) (tableRow ((recordCells r).map Integer.text) ++ "\n")

/-- The number nearest to a quotient, which must not be too large. -/
def quotient (n : Int) (den : Nat) : Except Fault Binary64 :=
  let q := Binary64.quotient n den
  if q.isFinite then .ok q else .error .quotientTooLarge

/-- The mean of some integers, zero if there are none. -/
def mean (ns : List Int) : Except Fault Binary64 :=
  if ns.isEmpty then .ok .zero else quotient (ns.foldr (· + ·) 0) ns.length

/-- The share of the ticks that executed an instruction, in percent. If no tick has passed, one
counts as passed. -/
def utilization (m : Metrics) : Except Fault Binary64 :=
  (quotient m.activeTicks (max 1 m.totalTicks).toNat).map (Binary64.scaleBy 100)

/-- The title and the headings of the table. -/
def reportHeading (title : String) : String :=
  "\nMETRICS REPORT (" ++ title ++ ")\n" ++ tableHeader ++ "\n"

/-- The averages over the completed processes. -/
def reportAverages (m : Metrics) : Except Fault String := do
  let waiting ← mean (m.completed.map Record.waiting)
  let turnaround ← mean (m.completed.map Record.turnaround)
  return "\nAverage Waiting Time: " ++ waiting.fixed 2 ++ "\nAverage Turnaround Time: "
    ++ turnaround.fixed 2 ++ "\n"

def reportUtilization (m : Metrics) : Except Fault String := do
  let utilization ← m.utilization
  return "CPU Utilization: " ++ utilization.fixed 2 ++ "%\n"

def reportSwitches (m : Metrics) : Except Fault String :=
  written [m.contextSwitches]
    ("Total Context Switches: " ++ Integer.text m.contextSwitches ++ "\n\n")

/-- The parts of the report under a title: the table row by row, and what is said below it. The
report ends before the first part that cannot be given. -/
def report (m : Metrics) (title : String) : List (Except Fault String) :=
  .ok (reportHeading title) :: m.byPid.map recordRow
    ++ [m.reportAverages, m.reportUtilization, m.reportSwitches]

end RoundRobin.Metrics
