import RoundRobin.Event
import RoundRobin.Metrics.Csv
import RoundRobin.Metrics.Report

/-!
# Handing over the metrics

The three ways in which the measurements leave the system, each with the events that it makes: the
report on the console, the chart as a drawing, and the table of results as a file. A report that
cannot be given to its end has made the events up to there.
-/

namespace RoundRobin.Metrics

/-- The title of a report or chart for which none is given. -/
def defaultTitle : String := "Round Robin"

/-- The events that say a report as far as it goes, and the fault that it ends in. -/
def reportEvents (m : Metrics) (title : String) : List Event × Except Fault Unit :=
  let (parts, outcome) := upToFault (m.report title)
  (parts.map fun text => .notice (.report text), outcome)

/-- Nothing is drawn or said if there are no slices. -/
def chartEvents (m : Metrics) (filename title : String) : Except Fault (List Event) := do
  match ← Chart.ofSlices? m.slices filename title with
  | none => return []
  | some chart => return [.chart chart, .notice (.chartSaved filename)]

/-- The file of the chart, if there is anything to draw, and the events that drawing it makes. -/
def exportChart (m : Metrics) (filename title : String) :
    Except Fault (Option String × List Event) := do
  let events ← m.chartEvents filename title
  return (if events.isEmpty then none else some filename, events)

/-- The notice of the table of results, and the storage with it. -/
def exportCsv (m : Metrics) (s : Storage) (path : String) : Except Fault (List Event) × Storage :=
  match m.saveCsv s path with
  | .error fault => (.error (.file fault), s)
  | .ok s => (m.csvLines.2.map fun () => [.notice (.resultsSaved path)], s)

end RoundRobin.Metrics
