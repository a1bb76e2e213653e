import RoundRobin.Proofs.Likeness

/-!
# Veils

A veil hides some events, and it may hide how time is cut into turns: the quantum, the switches of
the processor and the slices. Two machines that look the same behind a veil are told apart by no
operation that does not look under it. Such an operation is `Blind`: what it gives, the fault in
which it ends and what the veil shows of the machine after it depend only on what the veil shows of
the machine before. To look the same behind a veil is a likeness (`Veil.likeness`), so all instructions,
whole spells of them and leaving the processor are blind behind every veil. Whole steps are blind if the
veil hides no turns (`Veil.likeness_of_open`), since it is the quantum that ends a turn.
-/

namespace RoundRobin

open Operation

/-- What is hidden of a machine: some events, and perhaps how time is cut into turns. -/
structure Veil where
  hides : Event → Bool
  turns : Bool := false

/-- A process behind a veil. -/
def ControlBlock.veiled (v : Veil) (p : ControlBlock) : ControlBlock :=
  { p with quantum := if v.turns then 0 else p.quantum }

def Scheduler.veiled (v : Veil) (s : Scheduler) : Scheduler :=
  { s with processes := s.processes.map (ControlBlock.veiled v) }

def Metrics.veiled (v : Veil) (x : Metrics) : Metrics :=
  { x with
    contextSwitches := if v.turns then 0 else x.contextSwitches
    slices := if v.turns then [] else x.slices }

/-- A machine behind a veil. -/
def Machine.veiled (v : Veil) (m : Machine) : Machine :=
  { m with
    quantum := if v.turns then 0 else m.quantum
    scheduler := m.scheduler.veiled v
    metrics := m.metrics.veiled v
    log := (m.log.toList.filter fun e => !v.hides e).toArray }

/-! ### What a veil shows -/

namespace ControlBlock

theorem veiled_of_open {v : Veil} (clear : v.turns = false) (p : ControlBlock) : p.veiled v = p := by
  rw [veiled, clear]
  rfl

theorem veiled_of_turns {v : Veil} (hidden : v.turns) (p : ControlBlock) : p.veiled v = p.bare := by
  rw [veiled, if_pos hidden]
  rfl

end ControlBlock

namespace Scheduler

theorem veiled_of_open {v : Veil} (clear : v.turns = false) (s : Scheduler) : s.veiled v = s := by
  have same : ControlBlock.veiled v = id := funext (ControlBlock.veiled_of_open clear)
  rw [veiled, same, List.map_id]

theorem veiled_of_turns {v : Veil} (hidden : v.turns) (s : Scheduler) : s.veiled v = s.bare := by
  have same : ControlBlock.veiled v = ControlBlock.bare := funext (ControlBlock.veiled_of_turns hidden)
  rw [veiled, same]
  rfl

theorem veiled_bare (v : Veil) (s : Scheduler) : (s.veiled v).bare = s.bare := by
  have twice : ControlBlock.bare ∘ ControlBlock.veiled v = ControlBlock.bare := rfl
  unfold bare veiled
  rw [List.map_map, twice]

/-- A change of a process that does not look under the veil. -/
theorem veiled_amend (v : Veil) {s s' : Scheduler} (same : s.veiled v = s'.veiled v) (key : Int)
    {f : ControlBlock → ControlBlock} (bare : ∀ p, (f p).bare = f p.bare) :
    (s.amend key f).veiled v = (s'.amend key f).veiled v := by
  cases turns : v.turns with
  | false =>
    rw [veiled_of_open turns, veiled_of_open turns] at same
    rw [same]
  | true =>
    rw [veiled_of_turns turns, veiled_of_turns turns] at same
    rw [veiled_of_turns turns, veiled_of_turns turns, bare_amend _ _ bare, bare_amend _ _ bare, same]

end Scheduler

namespace Metrics

variable {v : Veil} {x y : Metrics}

theorem veiled_of_open (clear : v.turns = false) (x : Metrics) : x.veiled v = x := by
  rw [veiled, clear]
  rfl

theorem veiled_of_turns (hidden : v.turns) (x : Metrics) : x.veiled v = x.untimed := by
  rw [veiled, if_pos hidden, if_pos hidden]
  rfl

theorem Steady.veiled {f : Metrics → Metrics} (steady : Steady f) (same : x.veiled v = y.veiled v) :
    (f x).veiled v = (f y).veiled v := by
  cases turns : v.turns with
  | false =>
    rw [veiled_of_open turns, veiled_of_open turns] at same
    rw [same]
  | true =>
    rw [veiled_of_turns turns, veiled_of_turns turns] at same
    rw [veiled_of_turns turns, veiled_of_turns turns, steady.untimed, same, ← steady.untimed]

end Metrics

namespace Machine

variable (v : Veil) (m : Machine)

theorem veiled_recordAll (es : List Event) :
    (m.recordAll es).veiled v = (m.veiled v).recordAll (es.filter fun e => !v.hides e) := by
  simp [veiled, recordAll]

theorem veiled_record_of_hidden {e : Event} (hidden : v.hides e) : (m.record e).veiled v = m.veiled v := by
  rw [record_eq, veiled_recordAll, List.filter_cons_of_neg (by simp [hidden])]
  simp [recordAll]

/-- What is hidden is nothing that operations go by. -/
theorem veiled_bare : (m.veiled v).bare = m.bare :=
  congrArg (fun s => { m.bare with scheduler := s }) (m.scheduler.veiled_bare v)

end Machine

namespace Veil

/-- Two machines look the same behind a veil. -/
def Alike (v : Veil) (m m' : Machine) : Prop := m.veiled v = m'.veiled v

variable {v : Veil} {m m' : Machine}

theorem Alike.congr {γ : Type} (same : v.Alike m m') (f : Machine → γ) :
    f (m.veiled v) = f (m'.veiled v) :=
  congrArg f same

theorem Alike.recordAll (same : v.Alike m m') (es : List Event) :
    v.Alike (m.recordAll es) (m'.recordAll es) := by
  unfold Alike at same ⊢
  rw [m.veiled_recordAll, same, ← m'.veiled_recordAll]

theorem Alike.record (same : v.Alike m m') (e : Event) : v.Alike (m.record e) (m'.record e) := by
  rw [m.record_eq, m'.record_eq]
  exact same.recordAll [e]

theorem likeness (v : Veil) : Likeness.Filing v.Alike where
  bare {m m'} same := by
    rw [← m.veiled_bare v, same, m'.veiled_bare]
  memory same memory := same.congr fun m => ({ m with memory } : Machine)
  clock same clock := same.congr fun m => ({ m with clock } : Machine)
  current same current := same.congr fun m => ({ m with current } : Machine)
  nextAddress same nextAddress := same.congr fun m => ({ m with nextAddress } : Machine)
  inputs same inputs := same.congr fun m => ({ m with inputs } : Machine)
  storage {m m' path content storage} same _ := same.congr fun m => ({ m with storage } : Machine)
  scheduler {m m' s s'} same bare whole := by
    have shown : s.veiled v = s'.veiled v := by
      cases turns : v.turns with
      | false =>
        have quantum := same.congr Machine.quantum
        have scheduler : m.scheduler.veiled v = m'.scheduler.veiled v := same.congr Machine.scheduler
        rw [Scheduler.veiled_of_open turns, Scheduler.veiled_of_open turns] at scheduler
        unfold Machine.veiled at quantum
        rw [turns] at quantum
        rw [whole quantum scheduler]
      | true => rw [Scheduler.veiled_of_turns turns, Scheduler.veiled_of_turns turns, bare]
    show { m.veiled v with scheduler := s.veiled v } = { m'.veiled v with scheduler := s'.veiled v }
    rw [same, shown]
  metrics {m m' f} same steady := by
    have shown := steady.veiled (same.congr Machine.metrics : m.metrics.veiled v = _)
    show { m.veiled v with metrics := (f m.metrics).veiled v }
      = { m'.veiled v with metrics := (f m'.metrics).veiled v }
    rw [same, shown]
  told same _ := same.recordAll _
  shown {m m' n} same _ := by
    rw [show m.verbose = m'.verbose from same.congr Machine.verbose]
    split
    · exact same.record _
    · exact same
  counted key := by
    refine respects_countInstruction key (fun {m m'} same => ?_) (fun {m m'} same => ?_)
      fun same _ => same.record _
    · have counted := Scheduler.veiled_amend v (same.congr Machine.scheduler :
        m.scheduler.veiled v = m'.scheduler.veiled v) key (f := ControlBlock.counted) fun _ => rfl
      show ({ m.veiled v with
          clock := m.clock.tick
          scheduler := (m.scheduler.amend key ControlBlock.counted).veiled v
          metrics := (m.metrics.veiled v).countActive } : Machine)
        = { m'.veiled v with
          clock := m'.clock.tick
          scheduler := (m'.scheduler.amend key ControlBlock.counted).veiled v
          metrics := (m'.metrics.veiled v).countActive }
      rw [counted, same, show m.metrics.veiled v = m'.metrics.veiled v from
        same.congr Machine.metrics, show m.clock = m'.clock from same.congr Machine.clock]
    · exact ⟨same.congr Machine.delay, same.congr Machine.sleep⟩

/-- Behind a veil that hides no turns, machines that look the same have the same quanta and the same
measurements. -/
theorem likeness_of_open (clear : v.turns = false) : Likeness.Timing v.Alike where
  toFiling := v.likeness
  quantum {m m'} same := by
    have quantum := same.congr Machine.quantum
    unfold Machine.veiled at quantum
    rwa [clear] at quantum
  processes {m m'} same := by
    have scheduler : m.scheduler.veiled v = m'.scheduler.veiled v := same.congr Machine.scheduler
    rwa [Scheduler.veiled_of_open clear, Scheduler.veiled_of_open clear] at scheduler
  measured {m m'} same := by
    have metrics : m.metrics.veiled v = m'.metrics.veiled v := same.congr Machine.metrics
    rwa [Metrics.veiled_of_open clear, Metrics.veiled_of_open clear] at metrics

end Veil

/-! ### Blind operations -/

namespace Operation

variable {α β : Type} {v : Veil}

/-- What comes of an operation, behind a veil. -/
def veil (v : Veil) : EStateM.Result Fault Machine α → EStateM.Result Fault Machine α
  | .ok a m => .ok a (m.veiled v)
  | .error fault m => .error fault (m.veiled v)

theorem veil_eq_iff {r r' : EStateM.Result Fault Machine α} :
    veil v r = veil v r' ↔ Related v.Alike r r' := by
  constructor
  · intro shown
    cases r with
    | ok a m =>
      cases r' with
      | ok b m' =>
        obtain ⟨rfl, same⟩ := EStateM.Result.ok.inj shown
        exact .ok a same
      | error fault m' => exact absurd shown nofun
    | error fault m =>
      cases r' with
      | ok b m' => exact absurd shown nofun
      | error fault' m' =>
        obtain ⟨rfl, same⟩ := EStateM.Result.error.inj shown
        exact .error fault same
  · rintro (⟨a, same⟩ | ⟨fault, same⟩)
    · exact congrArg (EStateM.Result.ok a) same
    · exact congrArg (EStateM.Result.error fault) same

section

variable {r : EStateM.Result Fault Machine α} {a : α} {fault : Fault} {m : Machine}

theorem eq_ok_of_veil (shown : veil v r = .ok a m) : ∃ m', r = .ok a m' ∧ m'.veiled v = m := by
  cases r with
  | ok b m' =>
    obtain ⟨rfl, same⟩ := EStateM.Result.ok.inj shown
    exact ⟨m', rfl, same⟩
  | error fault m' => exact absurd shown nofun

theorem eq_error_of_veil (shown : veil v r = .error fault m) :
    ∃ m', r = .error fault m' ∧ m'.veiled v = m := by
  cases r with
  | ok b m' => exact absurd shown nofun
  | error fault' m' =>
    obtain ⟨rfl, same⟩ := EStateM.Result.error.inj shown
    exact ⟨m', rfl, same⟩

end

/-- What follows goes on in the same way behind the veil if what came before it did. -/
theorem veil_bind {x y : Operation α} {f g : α → Operation β} {m m' : Machine}
    (first : veil v (x m) = veil v (y m'))
    (rest : ∀ a m₁ m₂, x m = .ok a m₁ → y m' = .ok a m₂ → m₁.veiled v = m₂.veiled v →
      veil v (f a m₁) = veil v (g a m₂)) :
    veil v ((x >>= f) m) = veil v ((y >>= g) m') :=
  veil_eq_iff.2 ((veil_eq_iff.1 first).bind fun a m₁ m₂ result result' same =>
    veil_eq_iff.1 (rest a m₁ m₂ result result' same))

/-- An operation that does not look under a veil. -/
def Blind (v : Veil) (x : Operation α) : Prop := Respects v.Alike x

/-- A blind operation tells no machines apart that look the same behind the veil. -/
theorem Blind.congr {x : Operation α} (blind : Blind v x) {m m' : Machine}
    (same : m.veiled v = m'.veiled v) : veil v (x m) = veil v (x m') :=
  veil_eq_iff.2 (blind same)

end Operation

end RoundRobin
