import RoundRobin.Proofs.Move
import RoundRobin.Proofs.Operation

/-!
# Loading a program

What comes of loading a program. Its lines and the slots reserved for its variables go to memory
behind all programs before it, and a new process arrives at the tail of the pending queue (`Load`).
A program that is refused changes nothing. A sound machine with the programs before is then a sound
machine with the new one as well (`Sound.load`).
-/

namespace RoundRobin

open Operation

/-- A new process arrives and is pending. -/
structure Arrival (p : ControlBlock) (s s' : Scheduler) : Prop where
  process? : ∀ k, s'.process? k = if k = s.processes.nextKey then some p else s.process? k
  queue : ∀ st, s'.queue st
    = if st = .pending then s.queue .pending ++ [s.processes.nextKey] else s.queue st
  permits : ∀ r, s'.permits r = s.permits r
  length : s'.processes.length = s.processes.length + 1

theorem Scheduler.process?_nextKey (s : Scheduler) : s.process? s.processes.nextKey = none := by
  rw [← Option.not_isSome_iff_eq_none, process?_isSome_iff, ProcessTable.nextKey]
  omega

/-- The processes that were there before are left as they were. -/
theorem Arrival.process?_of_some {p q : ControlBlock} {s s' : Scheduler} (a : Arrival p s s')
    {key : Int} (known : s.process? key = some q) : s'.process? key = some q := by
  rw [a.process?, if_neg, known]
  rintro rfl
  rw [Scheduler.process?_nextKey] at known
  cases known

/-- A process that arrives is the last in the row. -/
theorem Arrival.processes {p : ControlBlock} {s s' : Scheduler} (a : Arrival p s s') :
    s'.processes = s.processes ++ [p] := by
  apply List.ext_getElem?
  intro i
  have at_i := a.process? (i + 1)
  rw [Scheduler.process?_succ, Scheduler.process?_succ, ProcessTable.nextKey] at at_i
  rw [at_i]
  by_cases last : i = s.processes.length
  · rw [if_pos (by omega), last, List.getElem?_concat_length]
  · rw [if_neg (by omega)]
    by_cases inside : i < s.processes.length
    · rw [List.getElem?_append_left inside]
    · rw [List.getElem?_eq_none (by omega), List.getElem?_eq_none (by simp; omega)]

namespace Scheduler

variable {s s' : Scheduler} {p : ControlBlock}

theorem process?_add (s : Scheduler) (p : ControlBlock) (k : Int) :
    (s.add p).process? k = if k = s.processes.nextKey then some p else s.process? k := by
  unfold process? add ProcessTable.process? ProcessTable.add ProcessTable.nextKey
  by_cases positive : 0 < k
  · rw [if_pos positive, if_pos positive]
    by_cases new : k = s.processes.length + 1
    · rw [if_pos new, List.getElem?_append_right (by omega),
        show (k - 1).toNat - s.processes.length = 0 by omega]
      rfl
    · rw [if_neg new]
      by_cases inside : (k - 1).toNat < s.processes.length
      · exact List.getElem?_append_left inside
      · rw [List.getElem?_eq_none (by simp; omega), List.getElem?_eq_none (by omega)]
  · rw [if_neg positive, if_neg positive, if_neg (by omega)]

/-- A process that is added and put into the pending queue arrives, if it goes by the next key and
is pending already. -/
theorem arrival_add (pid : p.pid = s.processes.nextKey) (pending : p.state = .pending) :
    Arrival p s ((s.add p).addPending s.processes.nextKey) := by
  have same : ({ p with state := .pending } : ControlBlock) = p := by
    rw [← pending]
  have known : ∀ k, ((s.add p).amend s.processes.nextKey fun p => { p with state := .pending }).process? k
      = if k = s.processes.nextKey then some p else s.process? k := by
    intro k
    rw [process?_amend, process?_add]
    split
    · exact congrArg some same
    · rfl
  refine ⟨known, fun st => ?_, fun r => rfl, ?_⟩
  · have found := (known s.processes.nextKey).trans (if_pos rfl)
    have number : ((s.add p).amend s.processes.nextKey fun p => { p with state := .pending }).pidOf
        s.processes.nextKey = s.processes.nextKey := by
      rw [Scheduler.process?] at found
      rw [pidOf, ProcessTable.pidOf, found]
      exact pid
    cases st with
    | pending => exact congrArg (fun k => s.pending ++ [k]) number
    | _ => rfl
  · exact (length_amend _ _ _).trans (List.length_append ..)

/-- An arrival keeps the order. -/
theorem Orderly.arrival (h : s.Orderly) (a : Arrival p s s') (pid : p.pid = s.processes.nextKey)
    (stands : p.station? = some .pending) : s'.Orderly := by
  have stationOf_eq : ∀ k, s'.stationOf k
      = if k = s.processes.nextKey then some .pending else s.stationOf k := by
    intro k
    rw [stationOf, a.process?]
    split
    · exact stands
    · rfl
  refine ⟨?_, ?_, ?_⟩
  · intro k q hq
    rw [a.process?] at hq
    split at hq
    · rename_i new
      cases hq
      rw [pid, new]
    · exact h.pid k q hq
  · intro k q hq
    rw [a.process?] at hq
    split at hq
    · cases hq
      exact ⟨.pending, stands⟩
    · exact h.station k q hq
  · intro k st
    rw [a.queue, stationOf_eq]
    by_cases new : k = s.processes.nextKey
    · -- the new number is in no queue yet
      have absent : ∀ st, (s.queue st).count k = 0 := by
        intro st
        rw [h.count, stationOf, new, process?_nextKey]
        rfl
      by_cases tail : st = .pending
      · rw [if_pos tail, if_pos new, List.count_append, absent, tail, new]
        simp
      · rw [if_neg tail, if_pos new, absent, if_neg]
        exact fun e => tail (Option.some.inj e).symm
    · rw [if_neg new, ← h.count]
      by_cases tail : st = .pending
      · rw [if_pos tail, List.count_append, tail, List.count_singleton, if_neg]
        · rfl
        · simpa using Ne.symm new
      · rw [if_neg tail]

end Scheduler

/-- A program is loaded behind all others, and its process arrives. -/
inductive Load (P : Program) (m : Machine) : Machine → Prop where
  | intro {memory : Memory} {last : Int} {s : Scheduler} (released : 0 ≤ P.release)
    (loaded : m.memory.load? m.nextAddress P.lines = .ok (memory, last))
    (arrival : Arrival (.create m.scheduler.processes.nextKey m.quantum P.release m.nextAddress last)
      m.scheduler s) :
    Load P m { m with memory, scheduler := s, nextAddress := last + 1 }

theorem Load.quantum {P : Program} {m m' : Machine} (load : Load P m m') :
    m'.quantum = m.quantum := by
  cases load
  rfl

theorem Load.rests {P : Program} {m m' : Machine} (load : Load P m m') : m'.Rests ↔ m.Rests := by
  cases load
  rfl

namespace Machine

variable {m : Machine} {lines : List String} {release : Setting} {time : Int}

/-- A program is loaded, and it is told or its release time has too many digits for that. -/
def Admits (m : Machine) (lines : List String) (release : Setting) (m' : Machine) : Prop :=
  (∃ key, createProcess lines release m = .ok key m') ∨
    createProcess lines release m = .error .numeralTooLong m'

theorem after_of_admits {m' : Machine} (admits : m.Admits lines release m') :
    after (createProcess lines release) m = m' := by
  rcases admits with ⟨key, loaded⟩ | untold
  · exact after_of_ok loaded
  · exact after_of_error untold

/-- A program is refused if its release time is no natural number or if it does not fit, and then
nothing is changed. Else it is loaded, and it is told unless its release time has too many digits. -/
theorem createProcess_cases (m : Machine) (lines : List String) (release : Setting) :
    (∃ time m₁ n, release.integer? = some time ∧ Load ⟨lines, time⟩ m m₁ ∧
      createProcess lines release m = if Integer.isWritable time
        then .ok m.scheduler.processes.nextKey (m₁.record (.notice n))
        else .error .numeralTooLong m₁) ∨
      ∃ fault, fault ≠ .numeralTooLong ∧ createProcess lines release m = .error fault m := by
  unfold createProcess
  cases given : release.integer? with
  | none => exact .inr ⟨.badRelease release, nofun, rfl⟩
  | some time =>
    dsimp only
    by_cases negative : time < 0
    · rw [if_pos negative]
      exact .inr ⟨.badRelease release, nofun, rfl⟩
    · rw [if_neg negative, bind_apply, get_apply]
      dsimp only
      cases loaded : m.memory.load? m.nextAddress lines with
      | error fault =>
        have outside : m.nextAddress < 0 ∨ m.memory.size < m.nextAddress + lines.length + 3 := by
          by_contra inside
          obtain ⟨r, fits⟩ := Memory.load?_eq_ok_iff.2 (by omega :
            0 ≤ m.nextAddress ∧ m.nextAddress + lines.length + 2 < m.memory.size)
          cases loaded.symm.trans fits
        cases loaded.symm.trans (Memory.load?_eq_error outside)
        exact .inr ⟨.doesNotFit lines.length m.nextAddress (m.nextAddress + lines.length + 2)
          m.memory.size, nofun, rfl⟩
      | ok result =>
        obtain ⟨memory, last⟩ := result
        have arrival := Scheduler.arrival_add (s := m.scheduler)
          (p := .create m.scheduler.processes.nextKey m.quantum time m.nextAddress last) rfl rfl
        refine .inl ⟨time, _, .loaded m.scheduler.processes.nextKey m.nextAddress last time, rfl,
          .intro (by simpa using negative) loaded arrival, ?_⟩
        dsimp only
        rw [bind_apply, set_apply]
        dsimp only
        rw [bind_apply, announce_apply]
        cases Integer.isWritable time <;> rfl

/-- A program that is refused changes nothing. -/
theorem eq_of_refused {fault : Fault} {m' : Machine}
    (refused : createProcess lines release m = .error fault m') (known : fault ≠ .numeralTooLong) :
    m' = m := by
  rcases m.createProcess_cases lines release with
    ⟨time, m₁, n, -, -, loaded⟩ | ⟨fault', -, unchanged⟩
  · rw [loaded] at refused
    split at refused <;> cases refused
    exact absurd rfl known
  · cases refused.symm.trans unchanged
    rfl

/-- After the attempt the program is loaded, or all is as before. -/
theorem after_createProcess_cases (m : Machine) (lines : List String) (release : Setting) :
    (∃ time m₁, Load ⟨lines, time⟩ m m₁ ∧
      (after (createProcess lines release) m).inside = m₁.inside) ∨
      after (createProcess lines release) m = m := by
  rcases m.createProcess_cases lines release with
    ⟨time, m₁, n, -, load, result⟩ | ⟨fault, -, refused⟩
  · refine .inl ⟨time, m₁, load, ?_⟩
    unfold after
    rw [result]
    cases Integer.isWritable time <;> rfl
  · exact .inr (after_of_error refused)

/-- A process that was made is that of a program that was loaded. -/
theorem load_of_admits {m' : Machine} (given : release.integer? = some time)
    (admits : m.Admits lines release m') : ∃ m₁, Load ⟨lines, time⟩ m m₁ ∧ m'.inside = m₁.inside := by
  rcases m.createProcess_cases lines release with
    ⟨time', m₁, n, given', load, result⟩ | ⟨fault, fault_ne, refused⟩
  · cases given.symm.trans given'
    refine ⟨m₁, load, ?_⟩
    unfold Admits at admits
    rw [result] at admits
    rcases admits with ⟨key, admits⟩ | admits
    · split at admits <;> cases admits
      rfl
    · split at admits <;> cases admits
      rfl
  · rcases admits with ⟨key, loaded⟩ | untold
    · cases refused.symm.trans loaded
    · cases refused.symm.trans untold
      exact absurd rfl fault_ne

theorem load_of_createProcess {key : Int} {m' : Machine} (given : release.integer? = some time)
    (loaded : createProcess lines release m = .ok key m') :
    ∃ m₁, Load ⟨lines, time⟩ m m₁ ∧ m'.inside = m₁.inside :=
  load_of_admits given (.inl ⟨key, loaded⟩)

/-- A process is given the next number. -/
theorem key_of_createProcess {key : Int} {m' : Machine}
    (loaded : createProcess lines release m = .ok key m') : key = m.scheduler.processes.nextKey := by
  rcases m.createProcess_cases lines release with ⟨time, m₁, n, -, -, result⟩ | ⟨fault, -, refused⟩
  · rw [loaded] at result
    split at result <;> cases result
    rfl
  · cases loaded.symm.trans refused

end Machine

theorem Layout.load {ps : List Program} {P : Program} {m m' : Machine} (h : Layout ps m)
    (load : Load P m m') : Layout (ps ++ [P]) m' := by
  obtain @⟨memory, last, s, released, loaded, arrival⟩ := load
  obtain ⟨hlast, low, high, -⟩ := Memory.load?_eq_ok loaded
  have next := h.next
  have size := Memory.size_load loaded
  have read := Memory.slot?_load loaded
  have extent : Program.extents (ps ++ [P]) = Program.extents ps + (P.lines.length + 3) :=
    Program.extents_append ps [P]
  have number : m.scheduler.processes.nextKey = ps.length + 1 := by
    rw [ProcessTable.nextKey, h.length]
  refine ⟨h.quantum_pos, ?_, ?_, ?_, ?_, ?_⟩
  · rw [arrival.length, h.length, List.length_append, List.length_singleton]
  · intro key Q q hQ hq
    rw [arrival.process?] at hq
    split at hq
    · rename_i new
      rw [new, number, Program.under_append_last] at hQ
      cases hQ
      cases hq
      refine ⟨rfl, rfl, ?_, .of_load loaded⟩
      rw [new, number, Program.start_append_last]
      exact next
    · rename_i old
      rcases Program.under_append_cases hQ with hQ' | ⟨new, -⟩
      · have placed := h.placed key Q q hQ' hq
        have upper := h.upper_lt hq
        refine ⟨placed.release, placed.quantum, ?_, placed.holds.of_slots ?_⟩
        · rw [Program.start_append P hQ']
          exact placed.lower
        · intro a slot _ before ha
          refine .inl ?_
          dsimp only
          rw [read, if_neg (by omega), ha]
      · exact absurd (new.trans number.symm) old
  · dsimp only
    omega
  · dsimp only
    omega
  · intro a after inside
    dsimp only at inside ⊢
    rw [read, if_neg (by omega)]
    exact h.unused a (by omega) (by omega)

namespace Sound

variable {ps : List Program} {P : Program} {m m' : Machine}

theorem load (h : Sound ps m) (load : Load P m m') : Sound (ps ++ [P]) m' := by
  refine ⟨h.layout.load load, ?_, ?_⟩
  · obtain ⟨-, -, arrival⟩ := load
    exact h.orderly.arrival arrival rfl rfl
  · obtain ⟨-, -, arrival⟩ := load
    refine ⟨fun key hk => ?_, fun key hk => ?_⟩
    · dsimp only at hk
      rw [arrival.queue, if_neg (by decide)] at hk
      exact h.processor.running key hk
    · obtain ⟨p, known, started, state⟩ := h.processor.current key hk
      exact ⟨p, arrival.process?_of_some known, started, state⟩

/-- A process stands at the same instruction after another program is loaded. -/
theorem instruction_load (h : Sound ps m) (load : Load P m m') {key : Int} {p : ControlBlock}
    (known : m.scheduler.process? key = some p) : (m'.memory.instructionSlot? p.pc).map Prod.snd
      = (m.memory.instructionSlot? p.pc).map Prod.snd := by
  have after := h.load load
  obtain ⟨Q, hQ, placed⟩ := h.layout.lookup known
  obtain ⟨released, loaded, arrival⟩ := load
  have placed' := after.layout.placed key Q p (Program.under_append_of_some P hQ)
    (arrival.process?_of_some known)
  exact placed'.holds.instructionSlot?_pc.trans placed.holds.instructionSlot?_pc.symm

end Sound

theorem Settled.load {P : Program} {m m' : Machine} (h : Settled m) (load : Load P m m') :
    Settled m' := by
  obtain ⟨-, -, arrival⟩ := load
  intro key current
  obtain ⟨p, known, runs⟩ := h key current
  exact ⟨p, arrival.process?_of_some known, runs⟩

end RoundRobin
