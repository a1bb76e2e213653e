import RoundRobin.Proofs.Reachable
import RoundRobin.Proofs.Scene

/-!
# Between requests

What holds whenever a request is over, though perhaps not at every moment within a step. It is
enough that it holds of a machine without processes, and that loading and whole steps keep it, also
steps that end in a fault (`Reachable.between`), if it looks at nothing but the inside of the
machine and what the programs printed (`Internal`).
-/

namespace RoundRobin

open Operation

/-! ### Handing over the results prints nothing for a program -/

/-- Events that hand over results: the parts of a report, a chart, and what is said of the files. -/
def Event.isHandover : Event → Bool
  | .notice (.report _) | .notice (.chartSaved _) | .notice (.resultsSaved _) | .chart _ => true
  | _ => false

theorem Event.output?_of_isHandover {e : Event} (h : e.isHandover) : e.output? = none := by
  cases e with
  | output => cases h
  | _ => rfl

namespace Metrics

theorem isHandover_of_mem_reportEvents {m : Metrics} {title : String} {e : Event}
    (he : e ∈ (m.reportEvents title).1) : e.isHandover := by
  obtain ⟨text, -, rfl⟩ := List.mem_map.1 he
  rfl

theorem isHandover_of_mem_chartEvents {m : Metrics} {filename title : String} {es : List Event}
    (h : m.chartEvents filename title = .ok es) {e : Event} (he : e ∈ es) : e.isHandover := by
  unfold chartEvents at h
  cases made : Chart.ofSlices? m.slices filename title with
  | error fault =>
    rw [made] at h
    cases h
  | ok chart? =>
    rw [made] at h
    cases chart? with
    | none =>
      cases h
      cases he
    | some chart =>
      cases h
      rcases List.mem_cons.1 he with rfl | saved
      · rfl
      · rw [List.mem_singleton.1 saved]
        rfl

theorem isHandover_of_mem_exportCsv {m : Metrics} {s : Storage} {path : String}
    {es : List Event} (h : (m.exportCsv s path).1 = .ok es) {e : Event} (he : e ∈ es) :
    e.isHandover := by
  unfold exportCsv at h
  cases saved : m.saveCsv s path with
  | error fault =>
    rw [saved] at h
    cases h
  | ok storage =>
    rw [saved] at h
    cases outcome : m.csvLines.2 with
    | error fault =>
      rw [outcome] at h
      cases h
    | ok fine =>
      rw [outcome] at h
      cases h
      rw [List.mem_singleton.1 he]
      rfl

end Metrics

namespace Machine

theorem still_conclude {events : List Event} (silent : ∀ e ∈ events, e.output? = none)
    (outcome : Except Fault Unit) : Still (conclude events outcome) := by
  intro m
  have told : (m.recordAll events).scene = m.scene := Still.modify_recordAll silent m
  cases outcome <;> exact told

theorem still_printReport : Still printReport :=
  .bind Keeps.get fun _ => .ofExcept_bind fun _ _ =>
    still_conclude (fun _ he =>
      Event.output?_of_isHandover (Metrics.isHandover_of_mem_reportEvents he)) _

theorem still_drawChart (chartFile : Option String) : Still (drawChart chartFile) := by
  unfold drawChart
  cases chartFile with
  | none => exact Keeps.pure ()
  | some file =>
    dsimp only
    split
    · exact Keeps.pure ()
    · refine .bind Keeps.get fun m => .ofExcept_bind fun title _ => .ofExcept_bind fun events drawn => ?_
      exact Still.modify_recordAll fun e he =>
        Event.output?_of_isHandover (Metrics.isHandover_of_mem_chartEvents drawn he)

theorem still_exportResults (resultsFile : Option String) : Still (exportResults resultsFile) := by
  unfold exportResults
  cases resultsFile with
  | none => exact Keeps.pure ()
  | some file =>
    dsimp only
    split
    · exact Keeps.pure ()
    · refine .bind Keeps.get fun m => .bind (fun _ => rfl) fun _ => .ofExcept_bind fun events saved => ?_
      exact Still.modify_recordAll fun e he =>
        Event.output?_of_isHandover (Metrics.isHandover_of_mem_exportCsv saved he)

theorem still_shutdown (chartFile resultsFile : Option String) :
    Still (shutdown chartFile resultsFile) :=
  .bind still_printReport fun _ =>
    .bind (still_drawChart chartFile) fun _ => still_exportResults resultsFile

/-- Loading prints nothing for a program. -/
theorem outputs_createProcess (m : Machine) (lines : List String) (release : Setting) :
    (after (createProcess lines release) m).outputs = m.outputs := by
  unfold createProcess
  cases release.integer? with
  | none => rfl
  | some time =>
    dsimp only
    by_cases negative : time < 0
    · rw [if_pos negative]
      rfl
    · rw [if_neg negative]
      unfold after
      rw [bind_apply, get_apply]
      dsimp only
      cases m.memory.load? m.nextAddress lines with
      | error fault => rfl
      | ok result =>
        obtain ⟨memory, last⟩ := result
        dsimp only
        rw [bind_apply, set_apply]
        dsimp only
        rw [bind_apply, announce_apply]
        by_cases short : Integer.isWritable time
        · rw [if_pos short]
          exact (outputs_record _ _).trans (List.append_nil _)
        · rw [if_neg short]
          rfl

theorem outputs_create {quantum : Setting} {memorySize : Int} {verbose : Bool} {delay : Binary64}
    {storage : Storage} {inputs : List String} {sleep : Sleep} {m : Machine}
    (made : create? quantum memorySize verbose delay storage inputs sleep = .ok m) :
    m.outputs = [] := by
  obtain ⟨q, memory, -, -, -, rfl⟩ := create?_eq_ok_iff.1 made
  rfl

end Machine

/-- A property of machines that looks at nothing but the inside and what the programs printed. -/
def Internal (R : List Program → Machine → Prop) : Prop :=
  ∀ ps m m', m'.inside = m.inside → m'.outputs = m.outputs → R ps m → R ps m'

theorem Internal.notice {R : List Program → Machine → Prop} (internal : Internal R)
    {ps : List Program} {m : Machine} (n : Notice) (holds : R ps m) :
    R ps (m.record (.notice n)) :=
  internal ps m _ rfl ((m.outputs_record _).trans (List.append_nil _)) holds

section

variable {R : List Program → Machine → Prop} (internal : Internal R)
  (step : ∀ ps s m, Kept ps s m → R ps m → R ps (after Machine.step m))

include internal step

/-- Steps that keep a property keep it over a run. -/
theorem Internal.runSteps {ps : List Program} {s m : Machine} (h : Kept ps s m) (holds : R ps m)
    (limit : Option Int) (left taken : Nat) : R ps (after (Machine.runSteps limit left taken) m) := by
  have course := Machine.runSteps_course limit left taken m
  unfold after
  generalize Machine.runSteps limit left taken m = result at course ⊢
  induction course generalizing s with
  | terminated all => exact holds
  | deadlocked | stopped => exact internal.notice _ holds
  | unending => exact holds
  | @fault left taken m m' fault raised =>
    have kept := step ps s m h holds
    rwa [after_of_error raised] at kept
  | @step left taken m m₁ ran result took rest ih =>
    have holds' := step ps s m h holds
    obtain ⟨s', kept, -⟩ := h.step
    rw [after_of_ok took] at kept holds'
    exact ih kept holds'

/-- What holds at first and is kept by loading and by every step holds wherever requests lead. -/
theorem Reachable.between (create : ∀ m, Sound [] m → m.current = none → m.scheduler = {} →
      m.outputs = [] → R [] m)
    (load : ∀ ps P s m m', Kept ps s m → R ps m → Load P m m' → m'.outputs = m.outputs →
      R (ps ++ [P]) m')
    {ps : List Program} {m : Machine} (h : Reachable ps m) : R ps m := by
  induction h with
  | create made =>
    obtain ⟨h, idle, empty, -⟩ := Sound.create made
    exact create _ h idle empty (Machine.outputs_create made)
  | @load ps lines release time m m' before given admits ih =>
    obtain ⟨m₁, load', same⟩ := Machine.load_of_admits given admits
    have outputs := m.outputs_createProcess lines release
    rw [Machine.after_of_admits admits] at outputs
    have outputs' : m₁.outputs = m.outputs := by
      obtain ⟨-, -, -⟩ := load'
      rfl
    obtain ⟨s, kept⟩ := before.kept
    exact internal _ m₁ _ same (outputs.trans outputs'.symm) (load _ _ _ _ _ kept ih load' outputs')
  | @refuse ps lines release fault m m' before refused known ih =>
    obtain rfl := Machine.eq_of_refused refused known
    exact ih
  | step before ih =>
    obtain ⟨s, kept⟩ := before.kept
    exact step _ s _ kept ih
  | @run ps m before limit ih =>
    obtain ⟨s, kept⟩ := before.kept
    have told : (m.record (.notice (.started m.quantum))).inside = m.inside := rfl
    obtain ⟨s', started, -⟩ := kept.quiet told
    have begun := internal.notice (.started m.quantum) ih
    rcases Machine.after_run_cases limit m with same | same
    · rwa [same]
    · rw [same]
      exact internal.runSteps step started begun _ _ _
  | @shutdown ps m before chartFile resultsFile ih =>
    have still := Machine.still_shutdown chartFile resultsFile m
    exact internal ps m _ (Machine.quiet_shutdown chartFile resultsFile m)
      (congrArg Scene.outputs still) ih
  | @outside ps m before storage inputs ih =>
    exact internal ps m { m with storage, inputs } rfl rfl ih
  | notice before n ih => exact internal.notice n ih

end

end RoundRobin
