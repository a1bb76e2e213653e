import RoundRobin.Proofs.Chart
import RoundRobin.Proofs.Drawing
import RoundRobin.Proofs.Records
import RoundRobin.Proofs.Requests

/-!
# Handing over the results

The report shows averages as binary64 numbers and the chart places its texts at such numbers, and what
is written must not have too many digits, so a run that takes too long cannot be reported or drawn.
What is measured of a machine lies between the beginning and now (`Measured`), and all integers below
`Binary64.limit` are in the range of the format. So as long as the clock is below the limit, the
hand-over of the results ends in a fault only if the table cannot be written (`Sound.shutdown_cases`).
Behind the limit it does end in a fault if a chart is wanted and some program was released late enough
(`Sound.shutdown_late`).
-/

namespace RoundRobin

open Operation

/-! ### What is measured -/

/-- What is measured of a machine lies between the beginning and now. -/
structure Measured (m : Machine) : Prop where
  started : 0 ≤ m.now
  active : 0 ≤ m.metrics.activeTicks
  total : m.metrics.activeTicks ≤ m.metrics.totalTicks
  drawn : ∀ s ∈ m.metrics.slices, 0 ≤ s.start ∧ s.start ≤ s.stop ∧ s.stop ≤ m.now
  counted : ∀ key p, m.scheduler.process? key = some p → 0 ≤ p.executed

namespace Measured

variable {ps : List Program} {m m' : Machine} {key : Int}

/-- A number of ticks passed, some of them active, and nothing was drawn. -/
theorem passes (M : Measured m) {n k : Nat} (few : k ≤ n) (now : m'.now = m.now + n)
    (active : m'.metrics.activeTicks = m.metrics.activeTicks + k)
    (total : m'.metrics.totalTicks = m.metrics.totalTicks + n)
    (slices : m'.metrics.slices = m.metrics.slices)
    (counted : ∀ key p', m'.scheduler.process? key = some p' →
      ∃ p, m.scheduler.process? key = some p ∧ p.executed ≤ p'.executed) : Measured m' := by
  obtain ⟨started, some_active, fewer, drawn, before⟩ := M
  refine ⟨by omega, by omega, by omega, fun s hs => ?_, fun key p' known' => ?_⟩
  · have within := drawn s (slices ▸ hs)
    omega
  · obtain ⟨p, known, more⟩ := counted key p' known'
    exact Int.le_trans (before key p known) more

/-- No tick passed, and nothing was measured but possibly a switch. -/
theorem of_same (M : Measured m) (now : m'.now = m.now)
    (metrics : m'.metrics = { m.metrics with contextSwitches := m'.metrics.contextSwitches })
    (counted : ∀ key p', m'.scheduler.process? key = some p' →
      ∃ p, m.scheduler.process? key = some p ∧ p.executed ≤ p'.executed) : Measured m' := by
  refine M.passes (Nat.le_refl 0) ?_ ?_ ?_ ?_ counted
  · rw [now, Int.natCast_zero, Int.add_zero]
  · rw [metrics, Int.natCast_zero, Int.add_zero]
  · rw [metrics, Int.natCast_zero, Int.add_zero]
  · rw [metrics]

theorem of_inside (M : Measured m) (same : m'.inside = m.inside) : Measured m' := by
  have metrics := Machine.metrics_of_inside same
  refine M.of_same (Machine.now_of_inside same) (by rw [metrics]) fun key p' known' => ?_
  exact ⟨p', Machine.scheduler_of_inside same ▸ known', Int.le_refl _⟩

theorem promotion (M : Measured m) (promotion : Promotion m m') : Measured m' := by
  refine M.of_same promotion.now (by rw [promotion.metrics]) fun key p' known' => ?_
  obtain ⟨p, known, body⟩ := Scheduler.process?_of_body? (promotion.body? key) known'
  exact ⟨p, known, Int.le_of_eq (ControlBlock.executed_of_body body).symm⟩

theorem occupied (M : Measured m) (h : Sound ps m) (occupied : Occupied key m m') :
    Measured m' := by
  cases occupied with
  | busy => exact M
  | @dispatched p m₁ _ dispatch same =>
    have M₁ : Measured m₁ := by
      refine M.of_same dispatch.now (by rw [dispatch.metrics]) fun k p' known' => ?_
      by_cases own : k = key
      · subst own
        cases dispatch.process?_self.symm.trans known'
        exact ⟨p, (dispatch.stands h).1, Int.le_refl _⟩
      · obtain ⟨q, known, body⟩ := Scheduler.process?_of_body? (dispatch.body?_of_ne own) known'
        exact ⟨q, known, Int.le_of_eq (ControlBlock.executed_of_body body).symm⟩
    exact M₁.of_inside same

theorem spell (M : Measured m) (runs : m.Runs key) {n : Nat} (spell : Spell key n m m') :
    Measured m' := by
  have metrics := spell.metrics
  refine M.passes (Nat.le_refl n) spell.now (by rw [metrics]; rfl) (by rw [metrics]; rfl)
    (by rw [metrics]; rfl) fun k p' known' => ?_
  by_cases own : k = key
  · subst own
    obtain ⟨-, p, known, -⟩ := runs
    obtain ⟨q, hq, executed, -⟩ := spell.own p known
    cases known'.symm.trans hq
    exact ⟨p, known, by omega⟩
  · obtain ⟨q, known, body⟩ := Scheduler.process?_of_body? (spell.others k own) known'
    exact ⟨q, known, Int.le_of_eq (ControlBlock.executed_of_body body).symm⟩

/-- Whoever leaves the processor after a turn that began in time leaves a slice of that time. -/
theorem depart (M : Measured m) {start : Int} (departure : Departure key start m m')
    (begun : 0 ≤ start ∧ start ≤ m.now) : Measured m' := by
  have now := departure.now
  have metrics := departure.metrics
  have frame := m.metrics.logSlice_frame ⟨key, start, m.now⟩
  refine ⟨now ▸ M.started, ?_, ?_, fun s hs => ?_, fun k p' known' => ?_⟩
  · rw [metrics, frame]
    exact M.active
  · rw [metrics, frame]
    exact M.total
  · rw [metrics] at hs
    rw [now]
    unfold Metrics.logSlice at hs
    split at hs
    · rcases List.mem_append.1 hs with old | new
      · exact M.drawn s old
      · rw [List.mem_singleton.1 new]
        exact ⟨begun.1, begun.2, Int.le_refl _⟩
    · exact M.drawn s hs
  · by_cases own : k = key
    · subst own
      obtain ⟨p, q, known, hq, executed, -⟩ := departure.leaves
      cases known'.symm.trans hq
      exact executed ▸ M.counted k p known
    · obtain ⟨q, known, body⟩ := Scheduler.process?_of_body? (departure.body?_of_ne own) known'
      exact ControlBlock.executed_of_body body ▸ M.counted k q known

/-- A step measures what happens in it, also if it ends in a fault. -/
theorem step (M : Measured m) (h : Sound ps m) (settled : Settled m) :
    Measured (after Machine.step m) := by
  have step := h.step_result settled
  unfold after
  generalize Machine.step m = result at step ⊢
  cases step with
  | @idle m₁ _ promotion idle nobody same =>
    have M₁ : Measured { m₁ with clock := m₁.clock.tick, metrics := m₁.metrics.countIdle } :=
      (M.promotion promotion).passes (Nat.zero_le 1) rfl (Int.add_zero _).symm rfl rfl
        fun _ p known => ⟨p, known, Int.le_refl _⟩
    exact M₁.of_inside same
  | @turn key m₁ m₂ m' promotion occupied turn =>
    obtain ⟨stretch, departure, same⟩ := turn
    have h₁ := h.works promotion.works
    have runs := occupied.runs (promotion.settled h settled)
    have M₂ := (M.promotion promotion).occupied h₁ occupied
    obtain ⟨k, -, spell, -⟩ := stretch.spell (h₁.works occupied.works)
    have now := spell.now
    exact ((M₂.spell runs spell).depart departure ⟨M₂.started, by omega⟩).of_inside same
  | @fault key _ m₁ m₂ m' promotion occupied halt =>
    have h₁ := h.works promotion.works
    have runs := occupied.runs (promotion.settled h settled)
    obtain ⟨k, -, spell⟩ := halt.spell (h₁.works occupied.works)
    exact ((M.promotion promotion).occupied h₁ occupied).spell runs spell

theorem runSteps (M : Measured m) (h : Sound ps m) (settled : Settled m) (rests : m.Rests)
    (limit : Option Int) (left taken : Nat) :
    Measured (after (Machine.runSteps limit left taken) m) := by
  have internal : Internal fun _ m => m.Rests ∧ Measured m := fun _ _ _ same _ holds =>
    ⟨(Machine.rests_of_inside same).2 holds.1, holds.2.of_inside same⟩
  refine (internal.runSteps ?_ (.clear h settled) ⟨rests, M⟩ limit left taken).2
  intro ps s m kept holds
  cases kept.seen.eq_of_rests holds.1
  exact ⟨(Proper.step.rests kept).2 holds.1, holds.2.step kept.sound (kept.settled_of_rests holds.1)⟩

end Measured

/-- The numbers of a record lie between zero and now, but for that of the process, which is one of the
processes. -/
theorem Measured.times_of_mem {ps : List Program} {m : Machine} (M : Measured m) (h : Sound ps m)
    (T : Timely m) (R : Recorded m) (released : ∀ P ∈ ps, 0 ≤ P.release) {r : Record}
    (hr : r ∈ m.metrics.completed) : (0 < r.pid ∧ r.pid ≤ ps.length) ∧
      ∀ n ∈ [r.release, r.start, r.finish, r.burst, r.turnaround, r.waiting, r.response],
        0 ≤ n ∧ n ≤ m.now := by
  obtain ⟨-, recorded⟩ := R.record?_of_mem h.orderly hr
  obtain ⟨p, known, own⟩ := Option.bind_eq_some_iff.1 recorded
  obtain ⟨start, finish, started, ended, eq⟩ := Record.ofProcess?_eq_some own
  obtain ⟨P, hP, placed⟩ := h.layout.lookup known
  have bounds := Scheduler.bounds_of_process? known
  rw [h.layout.length] at bounds
  have release : 0 ≤ p.releaseTime := placed.release ▸ released P (Program.mem_of_under hP)
  have executed := M.counted _ p known
  obtain ⟨after, enough⟩ := (T _ p known).span start started
  have past := (T _ p known).past finish ended
  rw [ended, Option.getD_some] at enough
  refine ⟨bounds, fun n hn => ?_⟩
  rw [eq, Record.ofTimes] at hn
  simp only [List.mem_cons, List.not_mem_nil, or_false] at hn
  omega

theorem Slice.length_le_ticks {l : List Slice} (wide : ∀ s ∈ l, 1 ≤ s.width) :
    (l.length : Int) ≤ ticks l := by
  have enough := List.card_nsmul_le_sum (l.map width) 1 (by simpa using wide)
  rwa [List.length_map, nsmul_one] at enough

/-- There are no more switches than active ticks and processes. -/
theorem Charted.switches_le {ps : List Program} {m : Machine} (C : Charted ps m) (h : Sound ps m)
    (M : Measured m) :
    0 ≤ m.metrics.contextSwitches ∧ m.metrics.contextSwitches ≤ m.now + ps.length := by
  have slices := Slice.length_le_ticks fun s hs => (C.inTurn.width s hs).1
  have empty := List.countP_le_length (p := fun key => (Program.code ps key).isEmpty)
    (l := m.scheduler.terminated)
  have length := h.length_queues
  rw [Machine.terminatedCount] at length
  have switches := C.switches
  have drawn := C.drawn
  have total := C.total
  have active := M.total
  omega

/-! ### What can be handed over -/

/-- Whether a fault is that a number is too large, for the format of binary64 numbers or for a
numeral. -/
def Fault.isTooLarge : Fault → Bool
  | quotientTooLarge | integerTooLarge | numeralTooLong => true
  | _ => false

/-- A result that is missing only if a number is too large for it. -/
def Overflows {α : Type} (x : Except Fault α) : Prop :=
  ∀ fault, x = .error fault → fault.isTooLarge

namespace Overflows

variable {α β : Type}

theorem ok (a : α) : Overflows (.ok a : Except Fault α) := nofun

theorem bind {x : Except Fault α} {f : α → Except Fault β} (hx : Overflows x)
    (hf : ∀ a, Overflows (f a)) : Overflows (x >>= f) := by
  cases x with
  | ok a => exact hf a
  | error fault =>
    intro fault' failed
    cases failed
    exact hx fault rfl

theorem map {x : Except Fault α} (hx : Overflows x) (f : α → β) : Overflows (x.map f) := by
  cases x with
  | ok a => exact ok (f a)
  | error fault =>
    intro fault' failed
    cases failed
    exact hx fault rfl

theorem written (numbers : List Int) (text : String) : Overflows (written numbers text) := by
  unfold RoundRobin.written
  split
  · exact ok text
  · rintro fault ⟨⟩
    rfl

theorem upToFault {parts : List (Except Fault α)} (each : ∀ part ∈ parts, Overflows part) :
    Overflows (upToFault parts).2 := by
  induction parts with
  | nil => exact ok ()
  | cons part rest ih =>
    obtain ⟨first, later⟩ := List.forall_mem_cons.1 each
    cases part with
    | ok a => exact ih later
    | error fault =>
      rintro fault' ⟨⟩
      exact first fault rfl

end Overflows

theorem upToFault_ok {α : Type} {parts : List (Except Fault α)}
    (each : ∀ part ∈ parts, ∃ a, part = .ok a) : (upToFault parts).2 = .ok () := by
  induction parts with
  | nil => rfl
  | cons part rest ih =>
    obtain ⟨⟨a, rfl⟩, later⟩ := List.forall_mem_cons.1 each
    exact ih later

/-- A slice below the limit of a process with a number that can be written is drawn. -/
theorem Slice.drawable_of_lt {s : Slice} (early : 0 ≤ s.start) (wide : s.start ≤ s.stop)
    (late : s.stop < Binary64.limit) (short : Integer.isWritable s.pid) : s.Drawable := by
  refine ⟨?_, short⟩
  unfold InRange
  generalize Binary64.limit = limit at *
  omega

theorem Slice.isTooLarge_refusal (s : Slice) : s.refusal.isTooLarge := by
  unfold refusal
  split <;> rfl

namespace Metrics

variable {x : Metrics} {ns : List Int} {n : Int} {den : Nat}

theorem overflows_quotient (n : Int) (den : Nat) : Overflows (quotient n den) := by
  unfold quotient
  dsimp only
  split
  · exact .ok _
  · rintro fault ⟨⟩
    rfl

theorem overflows_mean (ns : List Int) : Overflows (mean ns) := by
  unfold mean
  split
  · exact .ok _
  · exact overflows_quotient _ _

theorem overflows_reportEvents (x : Metrics) (title : String) :
    Overflows (x.reportEvents title).2 := by
  show Overflows (upToFault (x.report title)).2
  refine .upToFault fun part hpart => ?_
  simp only [report, List.cons_append, List.mem_cons, List.mem_append, List.mem_map,
    List.not_mem_nil, or_false] at hpart
  rcases hpart with rfl | ⟨r, -, rfl⟩ | rfl | rfl | rfl
  · exact .ok _
  · exact .written _ _
  · exact (overflows_mean _).bind fun _ => (overflows_mean _).bind fun _ => .ok _
  · exact ((overflows_quotient _ _).map _).bind fun _ => .ok _
  · exact .written _ _

theorem quotient_ok (positive : 0 < den) (small : n.natAbs < Binary64.limit * den) :
    ∃ q, quotient n den = .ok q :=
  ⟨_, if_pos (Binary64.isFinite_quotient positive small)⟩

/-- A mean of numbers below the limit is below the limit. -/
theorem mean_ok (within : ∀ n ∈ ns, 0 ≤ n ∧ n < Binary64.limit) : ∃ q, mean ns = .ok q := by
  unfold mean
  by_cases nothing : ns.isEmpty
  · rw [if_pos nothing]
    exact ⟨_, rfl⟩
  · rw [if_neg nothing]
    rw [List.isEmpty_iff] at nothing
    apply quotient_ok (List.length_pos_iff.2 nothing)
    have nonneg : 0 ≤ ns.sum := List.sum_nonneg fun n hn => (within n hn).1
    have small : ns.sum ≤ ns.length • ((Binary64.limit : Int) - 1) :=
      List.sum_le_card_nsmul ns _ fun n hn => Int.le_sub_one_of_lt (within n hn).2
    rw [Int.nsmul_eq_mul, Int.mul_sub, Int.mul_one] at small
    have some_number := List.length_pos_iff.2 nothing
    have product : ((Binary64.limit * ns.length : Nat) : Int) = ns.length * Binary64.limit := by
      rw [Int.natCast_mul, Int.mul_comm]
    show ns.sum.natAbs < Binary64.limit * ns.length
    omega

/-- Not more ticks are active than there are. -/
theorem utilization_ok (active : 0 ≤ x.activeTicks) (total : x.activeTicks ≤ x.totalTicks) :
    ∃ q, x.utilization = .ok q := by
  have wide : 2 * (max 1 x.totalTicks).toNat ≤ Binary64.limit * (max 1 x.totalTicks).toNat :=
    Nat.mul_le_mul_right _ (by decide +kernel)
  have used : ∃ q, quotient x.activeTicks (max 1 x.totalTicks).toNat = .ok q :=
    quotient_ok (by omega) (by omega)
  obtain ⟨q, same⟩ := used
  unfold utilization
  rw [same]
  exact ⟨_, rfl⟩

theorem reportEvents_ok {title : String}
    (short : ∀ r ∈ x.completed, ∀ n ∈ recordFields r, Integer.isWritable n)
    (times : ∀ r ∈ x.completed, (0 ≤ r.waiting ∧ r.waiting < Binary64.limit) ∧
      0 ≤ r.turnaround ∧ r.turnaround < Binary64.limit)
    (active : 0 ≤ x.activeTicks) (total : x.activeTicks ≤ x.totalTicks)
    (switches : Integer.isWritable x.contextSwitches) : (x.reportEvents title).2 = .ok () := by
  have waiting : ∃ q, mean (x.completed.map Record.waiting) = .ok q := mean_ok fun n hn => by
    obtain ⟨r, hr, rfl⟩ := List.mem_map.1 hn
    exact (times r hr).1
  have turnaround : ∃ q, mean (x.completed.map Record.turnaround) = .ok q := mean_ok fun n hn => by
    obtain ⟨r, hr, rfl⟩ := List.mem_map.1 hn
    exact (times r hr).2
  obtain ⟨waiting, waits⟩ := waiting
  obtain ⟨turnaround, turns⟩ := turnaround
  obtain ⟨utilization, used⟩ := utilization_ok active total
  show (upToFault (x.report title)).2 = .ok ()
  refine upToFault_ok fun part hpart => ?_
  simp only [report, List.cons_append, List.mem_cons, List.mem_append, List.mem_map,
    List.not_mem_nil, or_false] at hpart
  rcases hpart with rfl | ⟨r, hr, rfl⟩ | rfl | rfl | rfl
  · exact ⟨_, rfl⟩
  · refine ⟨_, written_of_short (fun n hn => ?_) _⟩
    refine short r ((List.mergeSort_perm _ _).mem_iff.1 hr) n ?_
    exact (List.Sublist.cons_cons _ (List.sublist_cons_self _ _)).subset hn
  · unfold reportAverages
    rw [waits, turns]
    exact ⟨_, rfl⟩
  · unfold reportUtilization
    rw [used]
    exact ⟨_, rfl⟩
  · exact ⟨_, written_of_short (by simpa using switches) _⟩

theorem overflows_chartEvents (x : Metrics) (filename title : String) :
    Overflows (x.chartEvents filename title) := by
  have drawing : Overflows (Chart.ofSlices? x.slices filename title) := by
    rcases Chart.ofSlices?_cases x.slices filename title with ⟨-, chart, drawn⟩ | ⟨s, -, -, failed⟩
    · rw [drawn]
      exact .ok chart
    · intro fault failed'
      rw [← Except.error.inj (failed.symm.trans failed')]
      exact s.isTooLarge_refusal
  refine drawing.bind fun chart => ?_
  cases chart <;> exact .ok _

/-- A chart is drawn if and only if all its slices can be. -/
theorem chartEvents_ok_iff {filename title : String} :
    (∃ events, x.chartEvents filename title = .ok events) ↔ ∀ s ∈ x.slices, s.Drawable := by
  unfold chartEvents
  rcases Chart.ofSlices?_cases x.slices filename title with
    ⟨drawable, chart, drawn⟩ | ⟨s, hs, undrawable, failed⟩
  · rw [drawn]
    refine iff_of_true ?_ drawable
    cases chart <;> exact ⟨_, rfl⟩
  · rw [failed]
    exact iff_of_false nofun fun drawable => undrawable (drawable s hs)

theorem chartEvents_ok (x : Metrics) (drawable : ∀ s ∈ x.slices, s.Drawable) (filename title : String) :
    ∃ events, x.chartEvents filename title = .ok events :=
  chartEvents_ok_iff.2 drawable

theorem csvLines_ok (short : ∀ r ∈ x.completed, ∀ n ∈ recordFields r, Integer.isWritable n) :
    x.csvLines.2 = .ok () := by
  refine upToFault_ok fun part hpart => ?_
  obtain ⟨r, hr, rfl⟩ := List.mem_map.1 hpart
  exact ⟨_, written_of_short (short r ((List.mergeSort_perm _ _).mem_iff.1 hr)) _⟩

theorem overflows_csvLines (x : Metrics) : Overflows x.csvLines.2 := by
  refine .upToFault fun part hpart => ?_
  obtain ⟨r, -, rfl⟩ := List.mem_map.1 hpart
  exact .written _ _

/-- The table of results is written to a path at which a file can be written. -/
theorem exportCsv_of_target (x : Metrics) {s : Storage} {path : String} {place : Place}
    (found : s.target path = .ok place) : x.exportCsv s path
      = (x.csvLines.2.map fun () => [.notice (.resultsSaved path)],
        s.put place (.file (Text.encode x.csv.toList))) := by
  unfold exportCsv saveCsv Storage.write
  rw [found]
  rfl

end Metrics

namespace Machine

variable {m : Machine}

/-- An operation that fails at a machine only if a number is too large. -/
def Strains {α : Type} (x : Operation α) (m : Machine) : Prop :=
  ∀ fault m', x m = .error fault m' → fault.isTooLarge

namespace Strains

variable {α β : Type} {x : Operation α} {f : α → Operation β}

theorem of_ok {a : α} {m' : Machine} (result : x m = .ok a m') : Strains x m := by
  intro fault m₁ failed
  rw [result] at failed
  cases failed

theorem bind (hx : Strains x m) (hf : ∀ a m', x m = .ok a m' → Strains (f a) m') :
    Strains (x >>= f) m := by
  intro fault m' failed
  rw [bind_apply] at failed
  cases first : x m with
  | ok a m₁ =>
    rw [first] at failed
    exact hf a m₁ first fault m' failed
  | error fault₁ m₁ =>
    rw [first] at failed
    cases failed
    exact hx fault m' first

theorem of_except {x : Except Fault α} (h : Overflows x) : Strains (MonadExcept.ofExcept x) m := by
  cases x with
  | ok a => exact .of_ok rfl
  | error fault =>
    intro fault' m' failed
    obtain ⟨rfl, -⟩ := EStateM.Result.error.inj failed
    exact h fault rfl

theorem conclude {events : List Event} {outcome : Except Fault Unit} (h : Overflows outcome) :
    Strains (Operation.conclude events outcome) m := by
  cases outcome with
  | ok a => exact .of_ok rfl
  | error fault =>
    intro fault' m' failed
    obtain ⟨rfl, -⟩ := EStateM.Result.error.inj failed
    exact h fault rfl

end Strains

theorem strains_printReport (m : Machine) : Strains printReport m := by
  refine .bind (.of_ok (get_apply m)) fun x _ _ => .bind (.of_except (.written _ _)) fun title _ _ => ?_
  exact .conclude (x.metrics.overflows_reportEvents title)

theorem strains_drawChart (chartFile : Option String) (m : Machine) :
    Strains (drawChart chartFile) m := by
  unfold drawChart
  cases chartFile with
  | none => exact .of_ok rfl
  | some file =>
    dsimp only
    split
    · exact .of_ok rfl
    · exact .bind (.of_ok (get_apply m)) fun _ _ _ => .bind (.of_except (.written _ _)) fun _ _ _ =>
        .bind (.of_except (Metrics.overflows_chartEvents _ _ _)) fun _ _ _ => .of_ok rfl

section

variable {γ : Type} {view : Machine → γ} (told : ∀ m es, view (m.recordAll es) = view m)

include told

/-- Nothing but the log is changed by a report. -/
theorem keeps_printReport : Keeps view printReport := by
  refine .bind .get fun m => .ofExcept_bind fun title _ => ?_
  intro m₁
  dsimp only
  cases (m.metrics.reportEvents title).2 <;> exact told m₁ _

/-- Nothing but the log is changed by a chart. -/
theorem keeps_drawChart (chartFile : Option String) : Keeps view (drawChart chartFile) := by
  unfold drawChart
  cases chartFile with
  | none => exact .pure ()
  | some file =>
    dsimp only
    split
    · exact .pure ()
    · exact .bind .get fun m => .ofExcept_bind fun title _ => .ofExcept_bind fun events _ m₁ =>
        told m₁ events

end

theorem printReport_ok (quantum : Integer.isWritable m.quantum)
    (reported : ∀ title, (m.metrics.reportEvents title).2 = .ok ()) :
    ∃ events, printReport m = .ok () (m.recordAll events) := by
  refine ⟨(m.metrics.reportEvents ("Round Robin, quantum " ++ Integer.text m.quantum)).1, ?_⟩
  unfold printReport
  rw [bind_apply, get_apply]
  dsimp only
  rw [written_of_short (by simpa using quantum), bind_apply]
  show Operation.conclude _ _ m = _
  rw [reported]
  rfl

theorem drawChart_ok (quantum : Integer.isWritable m.quantum)
    (drawable : ∀ s ∈ m.metrics.slices, s.Drawable) (chartFile : Option String) :
    ∃ events, drawChart chartFile m = .ok () (m.recordAll events) := by
  unfold drawChart
  cases chartFile with
  | none => exact ⟨[], by simp [recordAll, pure_apply]⟩
  | some file =>
    dsimp only
    split
    · exact ⟨[], by simp [recordAll, pure_apply]⟩
    · obtain ⟨events, drawn⟩ := m.metrics.chartEvents_ok drawable file
        ("Round Robin (q=" ++ Integer.text m.quantum ++ ")")
      refine ⟨events, ?_⟩
      rw [bind_apply, get_apply]
      dsimp only
      rw [written_of_short (by simpa using quantum), bind_apply]
      show (do let events ← ofExcept (m.metrics.chartEvents file _)
               modify fun m => m.recordAll events : Operation Unit) m = _
      rw [drawn]
      rfl

/-- A chart that was drawn has no slice that cannot be. -/
theorem drawable_of_drawChart {file : String} (named : file ≠ "") {m' : Machine}
    (drawn : drawChart (some file) m = .ok () m') : ∀ s ∈ m.metrics.slices, s.Drawable := by
  unfold drawChart at drawn
  dsimp only at drawn
  rw [if_neg (mt String.isEmpty_iff.1 named), bind_apply, get_apply] at drawn
  dsimp only at drawn
  cases title : written [m.quantum] ("Round Robin (q=" ++ Integer.text m.quantum ++ ")") with
  | error fault =>
    rw [title] at drawn
    cases drawn
  | ok title' =>
    rw [title, bind_apply] at drawn
    cases events : m.metrics.chartEvents file title' with
    | error fault =>
      simp only [ofExcept_of_ok rfl, bind_apply, ofExcept_of_error events] at drawn
      cases drawn
    | ok events' => exact Metrics.chartEvents_ok_iff.1 ⟨events', events⟩

/-- The table of results is exported, if a file is named for it. -/
theorem exportResults_of_ne_empty {path : String} (named : path ≠ "") :
    exportResults (some path) m = match m.metrics.exportCsv m.storage path with
      | (.error fault, storage) => .error fault { m with storage }
      | (.ok events, storage) => .ok () ({ m with storage }.recordAll events) := by
  unfold exportResults
  dsimp only
  rw [if_neg (mt String.isEmpty_iff.1 named), bind_apply, get_apply]
  dsimp only
  rcases m.metrics.exportCsv m.storage path with ⟨fault | events, storage⟩
  · rfl
  · rfl

section

variable {resultsFile : Option String} (writable : ∀ path, resultsFile = some path → path ≠ "" →
  ∃ place, m.storage.target path = .ok place)

include writable

/-- A table of results for which a file can be written is written. -/
theorem exportResults_ok
    (short : ∀ r ∈ m.metrics.completed, ∀ n ∈ Metrics.recordFields r, Integer.isWritable n) :
    ∃ m', exportResults resultsFile m = .ok () m' := by
  cases resultsFile with
  | none => exact ⟨_, rfl⟩
  | some path =>
    by_cases unnamed : path = ""
    · subst unnamed
      exact ⟨_, rfl⟩
    · obtain ⟨place, found⟩ := writable path rfl unnamed
      rw [exportResults_of_ne_empty unnamed, m.metrics.exportCsv_of_target found,
        m.metrics.csvLines_ok short]
      exact ⟨_, rfl⟩

theorem strains_exportResults : Strains (exportResults resultsFile) m := by
  cases resultsFile with
  | none => exact .of_ok rfl
  | some path =>
    by_cases unnamed : path = ""
    · subst unnamed
      exact .of_ok rfl
    · obtain ⟨place, found⟩ := writable path rfl unnamed
      intro fault m' failed
      rw [exportResults_of_ne_empty unnamed, m.metrics.exportCsv_of_target found] at failed
      have strains := m.metrics.overflows_csvLines
      cases outcome : m.metrics.csvLines.2 with
      | ok told =>
        rw [outcome] at failed
        cases failed
      | error fault' =>
        rw [outcome] at failed
        obtain ⟨rfl, -⟩ := EStateM.Result.error.inj failed
        exact strains fault' outcome

theorem strains_shutdown (chartFile : Option String) :
    Strains (shutdown chartFile resultsFile) m := by
  refine .bind (strains_printReport m) fun _ m₁ reported => .bind (strains_drawChart _ m₁)
    fun _ m₂ drawn => strains_exportResults ?_
  have storage : m₂.storage = m.storage :=
    ((keeps_drawChart (fun _ _ => rfl) chartFile).of_ok drawn).trans
      ((keeps_printReport fun _ _ => rfl).of_ok reported)
  rwa [storage]

theorem shutdown_ok (quantum : Integer.isWritable m.quantum)
    (reported : ∀ title, (m.metrics.reportEvents title).2 = .ok ())
    (drawable : ∀ s ∈ m.metrics.slices, s.Drawable)
    (short : ∀ r ∈ m.metrics.completed, ∀ n ∈ Metrics.recordFields r, Integer.isWritable n)
    (chartFile : Option String) : ∃ m', shutdown chartFile resultsFile m = .ok () m' := by
  obtain ⟨events, first⟩ := printReport_ok quantum reported
  obtain ⟨events', second⟩ := drawChart_ok (m := m.recordAll events) quantum drawable chartFile
  obtain ⟨m', third⟩ :=
    exportResults_ok (m := (m.recordAll events).recordAll events') writable short
  refine ⟨m', ?_⟩
  unfold shutdown
  rw [bind_apply, first]
  dsimp only
  rw [bind_apply, second]
  exact third

end

end Machine

/-- The results of a machine are handed over if the table can be written and the clock is below the
limit. At the limit and beyond, a number may be too large for the report, the chart or the table. -/
theorem Sound.shutdown_cases {ps : List Program} {m : Machine} (h : Sound ps m) (T : Timely m)
    (R : Recorded m) (M : Measured m) (C : Charted ps m) (released : ∀ P ∈ ps, 0 ≤ P.release)
    (quantum : Integer.isWritable m.quantum)
    (few : Integer.isWritable ((Binary64.limit : Int) + ps.length))
    (chartFile : Option String) {resultsFile : Option String}
    (writable : ∀ path, resultsFile = some path → path ≠ "" →
      ∃ place, m.storage.target path = .ok place) :
    (∃ m', Machine.shutdown chartFile resultsFile m = .ok () m') ∨ Binary64.limit ≤ m.now ∧
      ∃ fault m', Machine.shutdown chartFile resultsFile m = .error fault m' ∧ fault.isTooLarge := by
  by_cases early : m.now < Binary64.limit
  · left
    have zero : Integer.isWritable 0 := by decide +kernel
    have small : ∀ n : Int, 0 ≤ n → n ≤ m.now + ps.length → Integer.isWritable n := by
      intro n low high
      exact Integer.isWritable_of_between zero few low (by omega)
    have some_number := M.started
    have switches := C.switches_le h M
    have short : ∀ r ∈ m.metrics.completed, ∀ n ∈ Metrics.recordFields r, Integer.isWritable n := by
      intro r hr n hn
      obtain ⟨pid, times⟩ := M.times_of_mem h T R released hr
      rcases List.mem_cons.1 hn with rfl | hn
      · exact small r.pid (by omega) (by omega)
      · have time := times n hn
        exact small n time.1 (by omega)
    refine Machine.shutdown_ok writable quantum (fun title => ?_) (fun s hs => ?_) short chartFile
    · refine Metrics.reportEvents_ok short (fun r hr => ?_) M.active M.total
        (small _ switches.1 switches.2)
      obtain ⟨-, times⟩ := M.times_of_mem h T R released hr
      have waiting := times r.waiting (by simp)
      have turnaround := times r.turnaround (by simp)
      omega
    · obtain ⟨from_start, wide, past⟩ := M.drawn s hs
      obtain ⟨p, known⟩ := Option.isSome_iff_exists.1 (C.known s hs)
      have bounds := Scheduler.bounds_of_process? known
      rw [h.layout.length] at bounds
      exact Slice.drawable_of_lt from_start wide (Int.lt_of_le_of_lt past early)
        (small _ (by omega) (by omega))
  · cases result : Machine.shutdown chartFile resultsFile m with
    | ok _ m' => exact .inl ⟨m', rfl⟩
    | error fault m' =>
      exact .inr ⟨Int.not_lt.1 early, fault, m', rfl,
        Machine.strains_shutdown writable chartFile fault m' result⟩

/-! ### What comes too late -/

/-- If all processes are terminated, so is each of them. -/
theorem Sound.mem_terminated {ps : List Program} {m : Machine} (h : Sound ps m)
    (all : m.allTerminated) {key : Int} {p : ControlBlock}
    (known : m.scheduler.process? key = some p) : key ∈ m.scheduler.queue .terminated := by
  have length := h.orderly.length_queues
  rw [Machine.allTerminated, Machine.terminatedCount, beq_iff_eq] at all
  have others : (m.scheduler.queue .running).length + (m.scheduler.queue .ready).length
      + (m.scheduler.queue .pending).length + m.scheduler.blockedCount = 0 :=
    Nat.add_right_cancel (length.trans (all.symm.trans (Nat.zero_add _).symm))
  obtain ⟨st, stands⟩ := h.orderly.station key p known
  have mem := h.orderly.mem_queue_of_station known stands
  cases st with
  | terminated => exact mem
  | running | ready | pending =>
    have somebody := List.length_pos_of_mem mem
    omega
  | blocked r =>
    have waits : key ∈ Resource.all.flatMap m.scheduler.blocked :=
      List.mem_flatMap.2 ⟨r, Resource.mem_all r, mem⟩
    have somebody : 0 < m.scheduler.blockedCount := List.length_pos_of_mem waits
    omega

/-- A terminated process whose program has lines leaves a slice that ends after its release. -/
theorem Charted.exists_slice {ps : List Program} {m : Machine} (C : Charted ps m) (T : Timely m)
    (R : Recorded m) (M : Measured m) {key : Int} {p : ControlBlock}
    (known : m.scheduler.process? key = some p) (gone : key ∈ m.scheduler.queue .terminated)
    (some_line : Program.code ps key ≠ []) : ∃ s ∈ m.metrics.slices, p.releaseTime ≤ s.stop := by
  obtain ⟨s, last, ended⟩ := (C.processes key p known).stop some_line gone
  have mem : s ∈ Slice.own key m.metrics.slices := List.mem_of_getLast? last
  have recorded : m.scheduler.record? key ∈ m.metrics.completed.map some := by
    rw [R.records]
    exact List.mem_map_of_mem gone
  obtain ⟨r, -, own⟩ := List.mem_map.1 recorded
  rw [Scheduler.record?, known, Option.bind_some] at own
  obtain ⟨start, -, started, -⟩ := Record.ofProcess?_eq_some own.symm
  obtain ⟨after, enough⟩ := (T key p known).span start started
  have executed := M.counted key p known
  rw [ended, Option.getD_some] at enough
  exact ⟨s, List.mem_of_mem_filter mem, by omega⟩

/-- The results of a machine are not handed over if a chart is wanted and a program with lines was
released at `2 ^ 1025` or later: then its last slice begins behind the limit, or is as wide as that. -/
theorem Sound.shutdown_late {ps : List Program} {m : Machine} (h : Sound ps m) (C : Charted ps m)
    (T : Timely m) (R : Recorded m) (M : Measured m) (all : m.allTerminated) {key : Int}
    {P : Program} (under : Program.under ps key = some P) (some_line : P.lines ≠ [])
    (late : Binary64.unit 1025 ≤ P.release) {file : String} (named : file ≠ "")
    (resultsFile : Option String) :
    ∃ fault m', Machine.shutdown (some file) resultsFile m = .error fault m' := by
  obtain ⟨p, known⟩ := h.layout.process?_of_under under
  have release := (h.layout.placed key P p under known).release
  have code : Program.code ps key ≠ [] := by
    rw [Program.code_eq under]
    exact mt List.map_eq_nil_iff.1 some_line
  obtain ⟨s, hs, after⟩ := C.exists_slice T R M known (h.mem_terminated all known) code
  have beyond : ¬s.Drawable := by
    have twice : 2 * Binary64.limit ≤ Binary64.unit 1025 := by decide +kernel
    rintro ⟨inRange, -⟩
    unfold Slice.InRange at inRange
    generalize Binary64.limit = limit at *
    generalize Binary64.unit 1025 = power at *
    omega
  cases result : Machine.shutdown (some file) resultsFile m with
  | error fault m' => exact ⟨fault, m', rfl⟩
  | ok _ m' =>
    unfold Machine.shutdown at result
    rw [bind_apply] at result
    cases reported : Machine.printReport m with
    | error fault m₁ =>
      rw [reported] at result
      cases result
    | ok _ m₁ =>
      rw [reported] at result
      dsimp only at result
      rw [bind_apply] at result
      cases drawn : Machine.drawChart (some file) m₁ with
      | error fault m₂ =>
        rw [drawn] at result
        cases result
      | ok _ m₂ =>
        have metrics : m₁.metrics = m.metrics :=
          (Machine.keeps_printReport fun _ _ => rfl).of_ok reported
        exact absurd (Machine.drawable_of_drawChart named drawn s (metrics ▸ hs)) beyond

end RoundRobin
