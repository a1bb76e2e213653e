import RoundRobin.Metrics

/-!
# The chart of slices

A chart of who had the processor when: one row per process in the order of their numbers, one bar
per slice on the row of its process, and on each bar the name of the process. Rows and colours are
exact; where a text lies on the drawing area is computed in binary64 numbers, so the text on a bar that
starts too far out or is too wide cannot be placed, and a name with too many digits cannot be written.
-/

namespace RoundRobin

/-- The bar of a slice. -/
structure Bar where
  row : Nat
  start : Int
  stop : Int
  /-- Its colour, as an index into a palette of `Chart.paletteSize` colours. -/
  colour : Nat
  deriving DecidableEq, Repr, Inhabited

/-- The text on a bar, centred in it. -/
structure Caption where
  row : Nat
  start : Int
  stop : Int
  text : String
  deriving DecidableEq, Repr, Inhabited

/-- Whether the middle of a slice can be computed: its start and its width are in the range of
binary64 numbers. -/
def Slice.isPlaceable (s : Slice) : Bool :=
  (Binary64.ofInt s.start).isFinite && (Binary64.ofInt (s.stop - s.start)).isFinite

/-- A drawing of slices. Row `i` is marked by the tick `i`, which carries the `i`th label. -/
structure Chart where
  filename : String
  title : String
  axisLabel : String
  rowLabels : List String
  bars : List Bar
  captions : List Caption
  deriving DecidableEq, Repr, Inhabited

namespace Chart

def paletteSize : Nat := 10

/-- The number of dots per inch of the image. -/
def resolution : Nat := 150

/-- The file of a chart for which none is named. -/
def defaultFilename : String := "gantt_RR.png"

/-- Puts a number into an ascending list that does not hold it yet. -/
def insertRow (pid : Int) : List Int → List Int
  | [] => [pid]
  | row :: rest =>
    if pid < row then pid :: row :: rest
    else if pid = row then row :: rest
    else row :: insertRow pid rest

/-- The processes that have slices, each once, in ascending order. -/
def rows (slices : List Slice) : List Int := (slices.map Slice.pid).foldr insertRow []

/-- The bar of a slice. -/
def barOf (pids : List Int) (s : Slice) : Bar :=
  { row := pids.idxOf s.pid, start := s.start, stop := s.stop
    colour := pids.idxOf s.pid % paletteSize }

/-- The text on the bar of a slice. -/
def captionOf (pids : List Int) (s : Slice) : Except Fault Caption :=
  if s.isPlaceable then do
    let text ← written [s.pid] ("P" ++ Integer.text s.pid)
    return { row := pids.idxOf s.pid, start := s.start, stop := s.stop, text }
  else .error .integerTooLarge

/-- The text at the row of a process. -/
def labelOf (pid : Int) : Except Fault String := written [pid] ("PID " ++ Integer.text pid)

/-- The chart of some slices, if there are any. -/
def ofSlices? (slices : List Slice) (filename title : String) : Except Fault (Option Chart) :=
  if slices.isEmpty then .ok none
  else do
    let pids := rows slices
    let captions ← slices.mapM (captionOf pids)
    let rowLabels ← pids.mapM labelOf
    return some
      { filename
        title := "Scheduling Gantt Chart: " ++ title
        axisLabel := "Time (Ticks)"
        rowLabels
        bars := slices.map (barOf pids)
        captions }

/-! ### Positions on the drawing area -/

/-- The width and height of the drawing in inches: each row takes 0.8 inches, but there are at
least 2. -/
def size (c : Chart) : Binary64 × Binary64 :=
  let rows := c.rowLabels.length
  (.ofInt 10, if rows ≤ 2 then .ofInt 2 else (Binary64.ofDecimal false 8 (-1)).scaleBy rows)

/-- The positions of the ticks. -/
def ticks (c : Chart) : List Binary64 :=
  (List.range c.rowLabels.length).map fun (i : Nat) => .ofInt i

end Chart

namespace Bar

def left (b : Bar) : Binary64 := .ofInt b.start

def right (b : Bar) : Binary64 := .ofInt b.stop

/-- A bar starts 0.35 below the middle of its row. -/
def bottom (b : Bar) : Binary64 := (Binary64.ofInt b.row).add (.ofDecimal true 35 (-2))

/-- A bar is 0.7 high. -/
def top (b : Bar) : Binary64 := b.bottom.add (.ofDecimal false 7 (-1))

end Bar

namespace Caption

/-- The middle of the bar. -/
def left (c : Caption) : Binary64 :=
  (Binary64.ofInt c.start).add (Binary64.ofInt (c.stop - c.start)).half

def bottom (c : Caption) : Binary64 := .ofInt c.row

end Caption

end RoundRobin
