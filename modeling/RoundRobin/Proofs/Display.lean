import RoundRobin.Proofs.Likeness
import RoundRobin.Proofs.Tally

/-!
# Display

What shows of the machine beside what it does: instructions are announced, the memory and the queues
are laid out, and there are pauses (`Event.isDisplay`). Without these, and with the settings for them
off, a machine is `plain`. As long as the pauses are not refused, a machine is like the plain one, and it
pauses once for every instruction that it counts, if there are pauses at all (`Machine.Mirrored`). So two
machines that differ in these settings answer every request in the same way and are left alike by it
(`Machine.alike_of_display`).
-/

namespace RoundRobin

open Operation

/-! ### Plain machines -/

namespace Event

def isPause : Event → Bool
  | .pause _ => true
  | _ => false

theorem isDisplay_of_isPause {e : Event} (h : e.isPause) : e.isDisplay := by
  cases e with
  | pause => rfl
  | _ => cases h

end Event

namespace Machine

/-- The machine without display. -/
def plain (m : Machine) : Machine :=
  { m with
    verbose := false
    delay := .zero
    log := (m.log.toList.filter fun e => !e.isDisplay).toArray }

/-- The pauses so far. -/
def pauses (m : Machine) : List Event := m.log.toList.filter Event.isPause

/-- There was a pause of the given length for every instruction that was counted, if there are pauses
at all. -/
structure Paced (m : Machine) (delay : Binary64) : Prop where
  setting : m.delay = delay
  pauses : ∃ n : Nat, m.metrics.activeTicks = n ∧
    m.pauses = if delay.isZero then [] else List.replicate n (.pause delay)

theorem plain_recordAll (m : Machine) (es : List Event) :
    (m.recordAll es).plain = m.plain.recordAll (es.filter fun e => !e.isDisplay) := by
  simp [plain, recordAll]

/-- A plain machine has no record of what is shown. -/
theorem plain_record_of_display (m : Machine) {e : Event} (display : e.isDisplay) :
    (m.record e).plain = m.plain := by
  rw [record_eq, plain_recordAll, List.filter_cons_of_neg (by simp [display])]
  simp [recordAll]

theorem pauses_recordAll (m : Machine) (es : List Event) :
    (m.recordAll es).pauses = m.pauses ++ es.filter Event.isPause := by
  simp [pauses, recordAll]

/-- Events that are no display are recorded in a plain machine as well. -/
theorem plain_recordAll_of_matter (m : Machine) {es : List Event}
    (matter : ∀ e ∈ es, e.isDisplay = false) : (m.recordAll es).plain = m.plain.recordAll es := by
  have all : (es.filter fun e => !e.isDisplay) = es :=
    List.filter_eq_self.2 fun e he => by rw [matter e he]; rfl
  rw [plain_recordAll, all]

theorem pauses_recordAll_of_matter (m : Machine) {es : List Event}
    (matter : ∀ e ∈ es, e.isDisplay = false) : (m.recordAll es).pauses = m.pauses := by
  have none_pauses : es.filter Event.isPause = [] := by
    refine List.filter_eq_nil_iff.2 fun e he pause => ?_
    have display := Event.isDisplay_of_isPause pause
    rw [matter e he] at display
    cases display
  rw [pauses_recordAll, none_pauses, List.append_nil]

theorem Paced.of_same {m m' : Machine} {delay : Binary64} (h : m.Paced delay)
    (setting : m'.delay = m.delay) (pauses : m'.pauses = m.pauses)
    (active : m'.metrics.activeTicks = m.metrics.activeTicks) : m'.Paced delay := by
  refine ⟨setting.trans h.setting, ?_⟩
  rw [pauses, active]
  exact h.pauses

/-- An instruction is counted with its pause, if there are pauses at all. -/
theorem Paced.counted {m : Machine} {delay : Binary64} (h : m.Paced delay) (key : Int) :
    Paced (if m.delay.isZero then m.charge key else (m.charge key).record (.pause m.delay)) delay := by
  obtain ⟨same, n, active, pauses⟩ := h
  have counted : (m.charge key).metrics.activeTicks = (n + 1 : Nat) := by
    show m.metrics.activeTicks + 1 = _
    omega
  have before : (m.charge key).pauses = m.pauses := rfl
  rw [same]
  by_cases zero : delay.isZero
  · rw [if_pos zero] at pauses ⊢
    exact ⟨same, n + 1, counted, by rw [if_pos zero, before, pauses]⟩
  · rw [if_neg zero] at pauses ⊢
    refine ⟨same, n + 1, counted, ?_⟩
    rw [if_neg zero, record_eq, pauses_recordAll, before, pauses, List.replicate_succ']
    rfl

/-! ### The likeness of a machine and the plain one -/

/-- A machine whose pauses are not refused, and the same machine without display. -/
structure Mirrored (delay : Binary64) (m m' : Machine) : Prop where
  plain : m' = m.plain
  paced : m.Paced delay
  rests : m.sleep.Accepts delay

theorem likeness_mirrored (delay : Binary64) : Likeness.Timing (Mirrored delay) where
  bare := by
    rintro m m' ⟨rfl, paced, rests⟩
    rfl
  memory := by
    rintro m m' ⟨rfl, paced, rests⟩ memory
    exact ⟨rfl, paced.of_same rfl rfl rfl, rests⟩
  clock := by
    rintro m m' ⟨rfl, paced, rests⟩ clock
    exact ⟨rfl, paced.of_same rfl rfl rfl, rests⟩
  current := by
    rintro m m' ⟨rfl, paced, rests⟩ current
    exact ⟨rfl, paced.of_same rfl rfl rfl, rests⟩
  nextAddress := by
    rintro m m' ⟨rfl, paced, rests⟩ nextAddress
    exact ⟨rfl, paced.of_same rfl rfl rfl, rests⟩
  inputs := by
    rintro m m' ⟨rfl, paced, rests⟩ inputs
    exact ⟨rfl, paced.of_same rfl rfl rfl, rests⟩
  scheduler := by
    rintro m m' s s' ⟨rfl, paced, rests⟩ _ same
    rw [same rfl rfl]
    exact ⟨rfl, paced.of_same rfl rfl rfl, rests⟩
  metrics := by
    rintro m m' f ⟨rfl, paced, rests⟩ steady
    exact ⟨rfl, paced.of_same rfl rfl (steady.active m.metrics), rests⟩
  told := by
    rintro m m' es ⟨rfl, paced, rests⟩ matter
    exact ⟨(m.plain_recordAll_of_matter matter).symm,
      paced.of_same rfl (m.pauses_recordAll_of_matter matter) rfl, rests⟩
  shown := by
    rintro m m' n ⟨rfl, paced, rests⟩ display
    have unpaused : (m.record (.notice n)).pauses = m.pauses := by
      rw [record_eq, pauses_recordAll]
      exact List.append_nil _
    rw [if_neg (show ¬m.plain.verbose = true from Bool.false_ne_true)]
    split
    · exact ⟨(m.plain_record_of_display display).symm, paced.of_same rfl unpaused rfl, rests⟩
    · exact ⟨rfl, paced, rests⟩
  counted key := by
    rintro m m' ⟨rfl, paced, rests⟩
    have rests' : m.sleep.Accepts m.delay := paced.setting ▸ rests
    rw [countInstruction_eq rests', countInstruction_eq (m := m.plain) (.inl rfl),
      if_pos (show m.plain.delay.isZero = true from rfl)]
    refine .ok () ⟨?_, paced.counted key, ?_⟩
    · split
      · rfl
      · exact (plain_record_of_display (m.charge key) (e := .pause m.delay) rfl).symm
    · split <;> exact rests
  storage := by
    rintro m m' path content storage ⟨rfl, paced, rests⟩ _
    exact ⟨rfl, paced.of_same rfl rfl rfl, rests⟩
  quantum := by
    rintro m m' ⟨rfl, paced, rests⟩
    rfl
  processes := by
    rintro m m' ⟨rfl, paced, rests⟩
    rfl
  measured := by
    rintro m m' ⟨rfl, paced, rests⟩
    rfl

end Machine

/-! ### Requests -/

/-- What is asked of the machine from outside. -/
inductive Request where
  | load (lines : List String) (release : Setting)
  | step
  | run (limit : Option Int)
  | shutdown (chartFile resultsFile : Option String)

/-- What a request gives, if it does not end in a fault. -/
inductive Reply where
  | loaded (key : Int)
  | stepped (ran : Bool)
  | finished (now : Int)
  | handedOver

/-- What is done for a request. -/
def Request.perform : Request → Operation Reply
  | load lines release => return .loaded (← Machine.createProcess lines release)
  | step => return .stepped (← Machine.step)
  | run limit => return .finished (← Machine.run limit)
  | shutdown chartFile resultsFile => do
    Machine.shutdown chartFile resultsFile
    return .handedOver

namespace Operation

variable {α β : Type}

/-- What an operation gives or the fault in which it ends. -/
def outcome (op : Operation α) (m : Machine) : Except Fault α :=
  match op m with
  | .ok a _ => .ok a
  | .error fault _ => .error fault

theorem after_bind_pure (op : Operation α) (f : α → β) (m : Machine) :
    after (do return f (← op)) m = after op m := by
  unfold after
  rw [bind_apply]
  cases op m <;> rfl

theorem Related.outcome {R : Machine → Machine → Prop} {x y : Operation α} {m m' : Machine}
    (h : Related R (x m) (y m')) : outcome x m = outcome y m' := by
  unfold Operation.outcome
  revert h
  generalize x m = r
  generalize y m' = r'
  rintro (⟨a, like⟩ | ⟨fault, like⟩)
  · rfl
  · rfl

end Operation

theorem Request.respects {R : Machine → Machine → Prop} (L : Likeness.Timing R) (r : Request) :
    Respects R r.perform := by
  cases r with
  | load lines release => exact .bind (L.createProcess lines release) fun _ => .pure _
  | step => exact .bind L.step fun _ => .pure _
  | run limit => exact .bind (L.run limit) fun _ => .pure _
  | shutdown chartFile resultsFile => exact .bind (L.shutdown chartFile resultsFile) fun _ => .pure _

theorem Request.reachable {ps : List Program} {m : Machine} (h : Reachable ps m) (r : Request) :
    ∃ ps', Reachable ps' (after r.perform m) := by
  cases r with
  | load lines release =>
    rw [perform, after_bind_pure]
    exact h.createProcess lines release
  | step =>
    rw [perform, after_bind_pure]
    exact ⟨ps, h.step⟩
  | run limit =>
    rw [perform, after_bind_pure]
    exact ⟨ps, h.run limit⟩
  | shutdown chartFile resultsFile =>
    have same := after_bind_pure (Machine.shutdown chartFile resultsFile)
      (fun _ => Reply.handedOver) m
    rw [perform, same]
    exact ⟨ps, h.shutdown chartFile resultsFile⟩

namespace Machine

/-- What comes of some requests, one after the other, with the machine after each of them. Also after
a fault the next one is served. -/
def serve : List Request → Machine → List (Except Fault Reply × Machine)
  | [], _ => []
  | r :: rs, m => (outcome r.perform m, after r.perform m) :: serve rs (after r.perform m)

/-- Machines that are like each other serve requests in the same way. -/
theorem serve_of_like {R : Machine → Machine → Prop} (L : Likeness.Timing R) (rs : List Request)
    {m m' : Machine} (like : R m m') :
    List.Forall₂ (fun x y => x.1 = y.1 ∧ R x.2 y.2) (serve rs m) (serve rs m') := by
  induction rs generalizing m m' with
  | nil => exact .nil
  | cons r rs ih =>
    have related := r.respects L like
    exact .cons ⟨related.outcome, related.after⟩ (ih related.after)

/-- A plain machine does for requests what any other does whose pauses are not refused, but for display. -/
theorem serve_plain {delay : Binary64} (rs : List Request) {m : Machine}
    (mirrored : Mirrored delay m m.plain) :
    serve rs m.plain = (serve rs m).map fun (outcome, m) => (outcome, m.plain) := by
  have served := serve_of_like (likeness_mirrored delay) rs mirrored
  refine (List.forall₂_eq_eq_eq ▸ List.forall₂_map_left_iff.2 (served.imp ?_)).symm
  rintro ⟨outcome, m⟩ ⟨outcome', m'⟩ ⟨rfl, like⟩
  exact congrArg (Prod.mk outcome) like.plain.symm

/-- What requests keep holds after each of them. -/
theorem forall_serve {Q : Machine → Prop} (keeps : ∀ r m, Q m → Q (after (Request.perform r) m))
    (rs : List Request) {m : Machine} (start : Q m) : ∀ x ∈ serve rs m, Q x.2 := by
  induction rs generalizing m with
  | nil => exact fun x hx => absurd hx List.not_mem_nil
  | cons r rs ih =>
    intro x hx
    rw [serve] at hx
    rcases List.mem_cons.1 hx with first | later
    · rw [first]
      exact keeps r m start
    · exact ih (keeps r m start) x later

section

variable {quantum : Setting} {memorySize : Int} {verbose : Bool} {delay : Binary64}
  {storage : Storage} {inputs : List String} {m : Machine}

theorem create?_plain (made : create? quantum memorySize verbose delay storage inputs = .ok m)
    (verbose' : Bool) (delay' : Binary64) :
    ∃ m', create? quantum memorySize verbose' delay' storage inputs = .ok m' ∧
      m'.plain = m.plain := by
  obtain ⟨q, memory, given, positive, sized, rfl⟩ := create?_eq_ok_iff.1 made
  exact ⟨_, create?_eq_ok_iff.2 ⟨q, memory, given, positive, sized, rfl⟩, rfl⟩

theorem mirrored_of_create (made : create? quantum memorySize verbose delay storage inputs = .ok m) :
    Mirrored delay m m.plain := by
  obtain ⟨q, memory, -, -, -, rfl⟩ := create?_eq_ok_iff.1 made
  exact ⟨rfl, ⟨rfl, 0, rfl, by split <;> rfl⟩, Sleep.accepts_returning delay⟩

/-- Machines that were made with different settings for display, but are otherwise the same, serve any
requests in the same way: each has the same outcome, and leaves the same machine behind but for the
display. With pauses there is one for every instruction that was executed. -/
theorem alike_of_display (made : create? quantum memorySize verbose delay storage inputs = .ok m)
    (verbose' : Bool) (delay' : Binary64) (requests : List Request) :
    ∃ m', create? quantum memorySize verbose' delay' storage inputs = .ok m' ∧
      List.Forall₂ (fun x y => x.1 = y.1 ∧ x.2.plain = y.2.plain)
        (serve requests m) (serve requests m') ∧
      ∀ x ∈ serve requests m, ∃ n : Nat,
        (n : Int) = (x.2.scheduler.processes.map ControlBlock.executed).sum ∧
        x.2.pauses = if delay.isZero then [] else List.replicate n (.pause delay) := by
  obtain ⟨m', made', same⟩ := create?_plain made verbose' delay'
  have mirrored := mirrored_of_create made
  refine ⟨m', made', ?_, fun x hx => ?_⟩
  · have served := serve_plain requests (mirrored_of_create made')
    rw [same, serve_plain requests mirrored] at served
    rw [← List.forall₂_eq_eq_eq, List.forall₂_map_left_iff, List.forall₂_map_right_iff] at served
    exact served.imp fun x y alike => Prod.mk.inj alike
  · have reached : ∃ ps, Reachable ps x.2 :=
      forall_serve (Q := fun m => ∃ ps, Reachable ps m) (fun r m ⟨_, h⟩ => r.reachable h) requests
        ⟨[], .create made⟩ x hx
    have mirrored' : Mirrored delay x.2 x.2.plain :=
      forall_serve (Q := fun m => Mirrored delay m m.plain) (fun r m like => by
        have kept := (r.respects (likeness_mirrored delay) like).after
        exact ⟨rfl, kept.paced, kept.rests⟩) requests mirrored x hx
    obtain ⟨ps, h⟩ := reached
    obtain ⟨n, active, pauses⟩ := mirrored'.paced.pauses
    exact ⟨n, active.symm.trans h.tallied, pauses⟩

/-- A program that asks twice is loaded and another one does not fit. The run ends with the only answer,
and the next step too: with display and pauses of a second, and without. -/
theorem alike_of_display_asking : ∃ m m',
    create? (.whole 2) 8 true (.ofInt 1) {} ["7"] = .ok m ∧
    create? (.whole 2) 8 false .zero {} ["7"] = .ok m' ∧
    List.Forall₂ (fun x y => x.1 = y.1 ∧ x.2.plain = y.2.plain)
      (serve [.load ["assign x input", "assign y input"] (.whole 0), .load ["print x"] (.whole 0),
        .run none, .step] m)
      (serve [.load ["assign x input", "assign y input"] (.whole 0), .load ["print x"] (.whole 0),
        .run none, .step] m') ∧
    (serve [.load ["assign x input", "assign y input"] (.whole 0), .load ["print x"] (.whole 0),
      .run none, .step] m).map (fun x => x.2.pauses.length) = [0, 0, 1, 1] := by
  obtain ⟨m', made', alike, -⟩ := alike_of_display
    (show create? (.whole 2) 8 true (.ofInt 1) {} ["7"] = .ok _ from rfl) false .zero
    [.load ["assign x input", "assign y input"] (.whole 0), .load ["print x"] (.whole 0), .run none,
      .step]
  exact ⟨_, m', rfl, made', alike, by decide +kernel⟩

end

end Machine

end RoundRobin
