import RoundRobin.Metrics.Export
import RoundRobin.Proofs.Magnitude
import RoundRobin.Proofs.Numeral

/-!
# The rows of the chart

The row of a bar and its colour, the row of the text on it and the labels at the rows are computed one
by one, each from the list of the processes that have slices. They agree since that list is ascending
and holds no other process (`Chart.pairwise_rows`, `Chart.mem_rows`), so a place in it and the process at
that place determine each other (`Chart.idxOf_lt_iff`). The chart is drawn with all bars or not at all,
and it is drawn if every slice is `Slice.Drawable`.
-/

namespace RoundRobin

/-! ### One after the other -/

namespace Operation

variable {α β : Type} {f : α → Except Fault β} {l : List α}

theorem mapM_eq_ok {g : α → β} (each : ∀ a ∈ l, f a = .ok (g a)) : l.mapM f = .ok (l.map g) := by
  induction l with
  | nil => rfl
  | cons a rest ih =>
    rw [List.mapM_cons, each a List.mem_cons_self, ih fun b hb => each b (List.mem_cons_of_mem a hb)]
    rfl

/-- The first fault is that of the whole. -/
theorem mapM_eq_error {before after : List α} {a : α} {fault : Fault}
    (early : ∀ b ∈ before, ∃ c, f b = .ok c) (failed : f a = .error fault) :
    (before ++ a :: after).mapM f = .error fault := by
  induction before with
  | nil =>
    rw [List.nil_append, List.mapM_cons, failed]
    rfl
  | cons b rest ih =>
    obtain ⟨c, fine⟩ := early b List.mem_cons_self
    rw [List.cons_append, List.mapM_cons, fine, ih fun d hd => early d (List.mem_cons_of_mem b hd)]
    rfl

theorem mapM_cases (f : α → Except Fault β) (l : List α) : (∀ a ∈ l, ∃ b, f a = .ok b) ∨
    ∃ a ∈ l, ∃ fault, f a = .error fault ∧ l.mapM f = .error fault := by
  induction l with
  | nil => exact .inl nofun
  | cons a rest ih =>
    rw [List.mapM_cons]
    cases first : f a with
    | error fault => exact .inr ⟨a, List.mem_cons_self, fault, first, rfl⟩
    | ok b =>
      rcases ih with each | ⟨a', later, fault, failed, mapped⟩
      · exact .inl (List.forall_mem_cons.2 ⟨⟨b, first⟩, each⟩)
      · rw [mapped]
        exact .inr ⟨a', List.mem_cons_of_mem a later, fault, failed, rfl⟩

end Operation

open Operation

namespace Chart

variable {pid p q : Int} {pids : List Int} {slices : List Slice}

/-! ### The processes that have slices -/

theorem mem_insertRow : p ∈ insertRow pid pids ↔ p = pid ∨ p ∈ pids := by
  induction pids with
  | nil => simp [insertRow]
  | cons row rest ih =>
    unfold insertRow
    by_cases first : pid < row
    · rw [if_pos first, List.mem_cons]
    · rw [if_neg first]
      by_cases known : pid = row
      · simp [known]
      · rw [if_neg known, List.mem_cons, ih, List.mem_cons, or_left_comm]

theorem pairwise_insertRow (ascending : pids.Pairwise (· < ·)) :
    (insertRow pid pids).Pairwise (· < ·) := by
  induction ascending with
  | nil => exact List.pairwise_singleton _ _
  | @cons row rest below ascending ih =>
    unfold insertRow
    by_cases first : pid < row
    · rw [if_pos first]
      apply List.Pairwise.cons
      · simp only [List.mem_cons]
        rintro p (rfl | later)
        · exact first
        · exact Int.lt_trans first (below p later)
      · exact .cons below ascending
    · rw [if_neg first]
      by_cases known : pid = row
      · rw [if_pos known]
        exact .cons below ascending
      · rw [if_neg known]
        apply List.Pairwise.cons
        · simp only [mem_insertRow]
          rintro p (rfl | later)
          · omega
          · exact below p later
        · exact ih

theorem mem_rows : pid ∈ rows slices ↔ ∃ s ∈ slices, s.pid = pid := by
  induction slices with
  | nil => simp [rows]
  | cons s rest ih =>
    rw [rows, List.map_cons, List.foldr_cons, mem_insertRow, ← rows, ih]
    simp [eq_comm]

theorem pairwise_rows (slices : List Slice) : (rows slices).Pairwise (· < ·) := by
  induction slices with
  | nil => exact .nil
  | cons s rest ih => exact pairwise_insertRow ih

example : rows [⟨7, 0, 2⟩, ⟨-3, 2, 3⟩, ⟨7, 3, 4⟩, ⟨0, 4, 5⟩] = [-3, 0, 7] := by decide

theorem getElem?_idxOf (known : pid ∈ pids) : pids[pids.idxOf pid]? = some pid := by
  rw [List.getElem?_eq_getElem (List.idxOf_lt_length_iff.2 known), List.getElem_idxOf]

/-- In an ascending list, places are ordered as what stands at them. -/
theorem idxOf_lt_iff (ascending : pids.Pairwise (· < ·)) (hp : p ∈ pids) (hq : q ∈ pids) :
    pids.idxOf p < pids.idxOf q ↔ p < q := by
  have later : ∀ {a b : Int}, a ∈ pids → b ∈ pids → pids.idxOf a < pids.idxOf b → a < b := by
    intro a b ha hb before
    have order := List.pairwise_iff_getElem.1 ascending _ _ (List.idxOf_lt_length_iff.2 ha)
      (List.idxOf_lt_length_iff.2 hb) before
    rwa [List.getElem_idxOf, List.getElem_idxOf] at order
  refine ⟨later hp hq, fun less => ?_⟩
  rcases Nat.lt_trichotomy (pids.idxOf p) (pids.idxOf q) with before | same | after
  · exact before
  · exact absurd ((List.idxOf_inj hp).1 same) (Int.ne_of_lt less)
  · exact absurd (later hq hp after) (Int.lt_asymm less)

/-! ### The chart -/

/-- What is drawn of a slice: a bar on the row of its process, and the name of that process on the bar
and at the row. -/
structure Draws (c : Chart) (pids : List Int) (s : Slice) (b : Bar) (t : Caption) : Prop where
  row : pids[b.row]? = some s.pid
  bar : b = ⟨b.row, s.start, s.stop, b.row % 10⟩
  caption : t = ⟨b.row, s.start, s.stop, "P" ++ toString s.pid⟩
  label : c.rowLabels[b.row]? = some ("PID " ++ toString s.pid)

/-- A chart of slices, with a row for each of some processes. -/
structure Portrays (c : Chart) (slices : List Slice) (pids : List Int) : Prop where
  ascending : pids.Pairwise (· < ·)
  processes : ∀ pid, pid ∈ pids ↔ ∃ s ∈ slices, s.pid = pid
  ticks : c.ticks = (List.range pids.length).map fun i : Nat => Binary64.ofInt i
  labels : c.rowLabels = pids.map fun pid => "PID " ++ toString pid
  bars : c.bars.length = slices.length
  captions : c.captions.length = slices.length
  drawn : ∀ (i : Nat) (s : Slice), slices[i]? = some s →
    ∃ b t, c.bars[i]? = some b ∧ c.captions[i]? = some t ∧ Draws c pids s b t
  /-- Two bars lie on one row if and only if they belong to one process, and on the lower one if they
  belong to the process with the lower number. -/
  rows : ∀ (i j : Nat) (s s' : Slice) (b b' : Bar), slices[i]? = some s → slices[j]? = some s' →
    c.bars[i]? = some b → c.bars[j]? = some b' →
    (b.row = b'.row ↔ s.pid = s'.pid) ∧ (b.row < b'.row ↔ s.pid < s'.pid)

/-- The text on the bar of a slice that can be drawn. -/
def caption (pids : List Int) (s : Slice) : Caption :=
  ⟨pids.idxOf s.pid, s.start, s.stop, "P" ++ Integer.text s.pid⟩

/-- The chart of slices that can all be drawn. -/
def drawing (slices : List Slice) (filename title : String) : Chart where
  filename
  title := "Scheduling Gantt Chart: " ++ title
  axisLabel := "Time (Ticks)"
  rowLabels := (rows slices).map fun pid => "PID " ++ Integer.text pid
  bars := slices.map (barOf (rows slices))
  captions := slices.map (caption (rows slices))

theorem portrays_drawing (slices : List Slice) (filename title : String) :
    (drawing slices filename title).Portrays slices (rows slices) := by
  have known : ∀ (i : Nat) (s : Slice), slices[i]? = some s → s.pid ∈ rows slices :=
    fun _ s at_i => mem_rows.2 ⟨s, List.mem_of_getElem? at_i, rfl⟩
  refine ⟨pairwise_rows slices, fun _ => mem_rows, ?_, ?_, ?_, ?_, ?_, ?_⟩
  · simp only [ticks, drawing, List.length_map]
  · simp only [drawing, Integer.text_eq_toString]
  · exact List.length_map _
  · exact List.length_map _
  · intro i s at_i
    have row := getElem?_idxOf (known i s at_i)
    let place := (rows slices).idxOf s.pid
    refine ⟨⟨place, s.start, s.stop, place % 10⟩, ⟨place, s.start, s.stop, "P" ++ toString s.pid⟩,
      ?_, ?_, row, rfl, rfl, ?_⟩
    · rw [drawing, List.getElem?_map, at_i]
      rfl
    · rw [drawing, List.getElem?_map, at_i, Option.map_some, caption, Integer.text_eq_toString]
    · rw [drawing, List.getElem?_map, row, Option.map_some, Integer.text_eq_toString]
  · intro i j s s' b b' at_i at_j drawn_i drawn_j
    rw [drawing, List.getElem?_map, at_i] at drawn_i
    rw [drawing, List.getElem?_map, at_j] at drawn_j
    cases drawn_i
    cases drawn_j
    exact ⟨List.idxOf_inj (known i s at_i),
      idxOf_lt_iff (pairwise_rows slices) (known i s at_i) (known j s' at_j)⟩

end Chart

/-! ### What can be drawn -/

namespace Slice

variable {s : Slice} {pids : List Int}

/-- The start and the width of a slice are in the range of binary64 numbers. -/
def InRange (s : Slice) : Prop :=
  s.start.natAbs < Binary64.limit ∧ (s.stop - s.start).natAbs < Binary64.limit

instance (s : Slice) : Decidable s.InRange :=
  inferInstanceAs (Decidable (_ ∧ _))

/-- A slice is in range, and the number of its process can be written. -/
def Drawable (s : Slice) : Prop := s.InRange ∧ Integer.isWritable s.pid

theorem isPlaceable_iff : s.isPlaceable ↔ s.InRange := by
  unfold isPlaceable InRange
  rw [Bool.and_eq_true, Binary64.isFinite_ofInt_iff, Binary64.isFinite_ofInt_iff]

/-- The fault of a slice that cannot be drawn. Where its text lies is computed before it is written. -/
def refusal (s : Slice) : Fault := if s.InRange then .numeralTooLong else .integerTooLarge

theorem captionOf_of_drawable (drawable : s.Drawable) :
    Chart.captionOf pids s = .ok (Chart.caption pids s) := by
  obtain ⟨inRange, short⟩ := drawable
  unfold Chart.captionOf
  rw [if_pos (isPlaceable_iff.2 inRange), written_of_short (by simpa using short)]
  rfl

theorem captionOf_of_not_drawable (undrawable : ¬s.Drawable) :
    Chart.captionOf pids s = .error s.refusal := by
  unfold Chart.captionOf refusal
  by_cases inRange : s.InRange
  · have long : ¬Integer.isWritable s.pid := fun short => undrawable ⟨inRange, short⟩
    rw [if_pos (isPlaceable_iff.2 inRange), if_pos inRange, written_of_long (by simpa using long)]
    rfl
  · rw [if_neg (mt isPlaceable_iff.1 inRange), if_neg inRange]

end Slice

namespace Chart

variable {slices : List Slice} {filename title : String}

theorem ofSlices?_of_drawable (some_slice : slices ≠ []) (drawable : ∀ s ∈ slices, s.Drawable) :
    ofSlices? slices filename title = .ok (some (drawing slices filename title)) := by
  have labelled : ∀ pid ∈ rows slices, labelOf pid = .ok ("PID " ++ Integer.text pid) := by
    intro pid known
    obtain ⟨s, hs, rfl⟩ := mem_rows.1 known
    exact written_of_short (by simpa using (drawable s hs).2) _
  unfold ofSlices?
  rw [if_neg (mt List.isEmpty_iff.1 some_slice)]
  dsimp only
  rw [mapM_eq_ok fun s hs => Slice.captionOf_of_drawable (drawable s hs), mapM_eq_ok labelled]
  rfl

/-- The first slice that cannot be drawn keeps all from being drawn. -/
theorem ofSlices?_of_not_drawable {before after : List Slice} {s : Slice}
    (early : ∀ s ∈ before, s.Drawable) (undrawable : ¬s.Drawable) :
    ofSlices? (before ++ s :: after) filename title = .error s.refusal := by
  unfold ofSlices?
  rw [if_neg (by simp)]
  dsimp only
  rw [mapM_eq_error (fun s hs => ⟨_, Slice.captionOf_of_drawable (early s hs)⟩)
    (Slice.captionOf_of_not_drawable undrawable)]
  rfl

/-- A chart is drawn, or it is not for want of a slice that can be drawn. -/
theorem ofSlices?_cases (slices : List Slice) (filename title : String) :
    ((∀ s ∈ slices, s.Drawable) ∧ ∃ chart, ofSlices? slices filename title = .ok chart) ∨
      ∃ s ∈ slices, ¬s.Drawable ∧ ofSlices? slices filename title = .error s.refusal := by
  by_cases drawable : ∀ s ∈ slices, s.Drawable
  · refine .inl ⟨drawable, ?_⟩
    by_cases nothing : slices = []
    · subst nothing
      exact ⟨none, rfl⟩
    · exact ⟨_, ofSlices?_of_drawable nothing drawable⟩
  · right
    rcases mapM_cases (captionOf (rows slices)) slices with each | ⟨s, hs, fault, failed, mapped⟩
    · refine absurd (fun s hs => ?_) drawable
      by_contra undrawable
      obtain ⟨t, placed⟩ := each s hs
      rw [Slice.captionOf_of_not_drawable undrawable] at placed
      exact absurd placed nofun
    · have undrawable : ¬s.Drawable := fun drawable =>
        absurd ((Slice.captionOf_of_drawable drawable).symm.trans failed) nofun
      obtain rfl : s.refusal = fault :=
        Except.error.inj ((Slice.captionOf_of_not_drawable undrawable).symm.trans failed)
      refine ⟨s, hs, undrawable, ?_⟩
      unfold ofSlices?
      rw [if_neg (mt List.isEmpty_iff.1 (List.ne_nil_of_mem hs))]
      dsimp only
      rw [mapped]
      rfl

end Chart

namespace Metrics

variable {x : Metrics} {filename title : String}

theorem exportChart_eq (x : Metrics) (filename title : String) : x.exportChart filename title
    = (x.chartEvents filename title).map fun events =>
      (if events.isEmpty then none else some filename, events) := by
  unfold exportChart
  cases x.chartEvents filename title <;> rfl

theorem exportChart_of_not_drawable {before after : List Slice} {s : Slice}
    (split : x.slices = before ++ s :: after) (early : ∀ s' ∈ before, s'.Drawable)
    (undrawable : ¬s.Drawable) : x.exportChart filename title = .error s.refusal := by
  have refused : x.chartEvents filename title = .error s.refusal := by
    unfold chartEvents
    rw [split, Chart.ofSlices?_of_not_drawable early undrawable]
    rfl
  rw [exportChart_eq, refused]
  rfl

/-- What exporting a chart comes to: there is nothing to draw, all of it is drawn, or none of it is,
since a slice cannot be drawn. -/
structure ExportsChart (x : Metrics) (filename title : String) : Prop where
  nothing : x.slices = [] → x.exportChart filename title = .ok (none, [])
  drawn : x.slices ≠ [] → (∀ s ∈ x.slices, s.InRange ∧ Integer.isWritable s.pid) → ∃ c pids,
    x.exportChart filename title
        = .ok (some filename, [.chart c, .notice (.chartSaved filename)]) ∧
      c.filename = filename ∧ c.title = "Scheduling Gantt Chart: " ++ title ∧
      c.Portrays x.slices pids
  /-- It is the first such slice that matters, and first of all whether it is in range. -/
  refused : ∀ before s after, x.slices = before ++ s :: after →
    (∀ s' ∈ before, s'.InRange ∧ Integer.isWritable s'.pid) →
    ¬(s.InRange ∧ Integer.isWritable s.pid) → x.exportChart filename title
      = .error (if s.InRange then .numeralTooLong else .integerTooLarge)

/-- A chart has a row for each process that has a slice, in the order of their numbers, and shows every
slice on the row of its process and under its name. -/
theorem exports_chart (x : Metrics) (filename title : String) : x.ExportsChart filename title := by
  refine ⟨fun nothing => ?_, fun some_slice drawable => ?_, fun before s after split early bad =>
    exportChart_of_not_drawable split early bad⟩
  · have empty : x.chartEvents filename title = .ok [] := by
      unfold chartEvents Chart.ofSlices?
      rw [nothing]
      rfl
    rw [exportChart_eq, empty]
    rfl
  · have drawn : x.chartEvents filename title
        = .ok [.chart (.drawing x.slices filename title), .notice (.chartSaved filename)] := by
      unfold chartEvents
      rw [Chart.ofSlices?_of_drawable some_slice drawable]
      rfl
    refine ⟨.drawing x.slices filename title, Chart.rows x.slices, ?_, rfl, rfl,
      Chart.portrays_drawing x.slices filename title⟩
    rw [exportChart_eq, drawn]
    rfl

/-- A slice from the beginning to the time `10 ^ 400` is not drawn, and neither is one of a process whose
number has too many digits. -/
theorem exports_chart_beyond :
    ({ slices := [⟨1, 0, Nat.pow 10 400⟩] } : Metrics).exportChart Chart.defaultFilename defaultTitle
      = .error .integerTooLarge ∧
    ({ slices := [⟨Integer.tooLarge, 0, 1⟩] } : Metrics).exportChart Chart.defaultFilename defaultTitle
      = .error .numeralTooLong := by
  have wide : ¬Slice.InRange ⟨1, 0, Nat.pow 10 400⟩ := by decide +kernel
  have placed : Slice.InRange ⟨Integer.tooLarge, 0, 1⟩ := by decide +kernel
  have long : ¬Integer.isWritable Integer.tooLarge := by decide +kernel
  have refused (s : Slice) (undrawable : ¬s.Drawable) :
      ({ slices := [s] } : Metrics).exportChart Chart.defaultFilename defaultTitle = .error s.refusal :=
    exportChart_of_not_drawable (List.nil_append [s]).symm nofun undrawable
  constructor
  · rw [refused _ fun drawable => wide drawable.1, Slice.refusal, if_neg wide]
  · rw [refused _ fun drawable => long drawable.2, Slice.refusal, if_pos placed]

end Metrics

end RoundRobin
