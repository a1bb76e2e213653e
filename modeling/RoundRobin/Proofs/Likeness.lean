import RoundRobin.Proofs.Bare

/-!
# Likeness

Two machines that are like each other agree in all that operations go by, and may differ in what these
only carry along. A relation between machines is a `Likeness` if it says at least as much and is kept when
the same is done to both. Every operation `Respects` a likeness: it comes to the same on both machines and
leaves machines that are like each other.

What is needed of the relation differs between operations. A file is written only if the relation is kept
when the files change (`Likeness.Filing`), and a turn is as long and a hand-over shows the same only if the
quanta and the measurements are the same (`Likeness.Timing`).
-/

namespace RoundRobin

open Operation

/-! ### Operations that come to the same -/

namespace Operation

variable {α β : Type} {R : Machine → Machine → Prop}

/-- What comes of two operations is the same, and the machines that they leave are related. -/
inductive Related (R : Machine → Machine → Prop) :
    EStateM.Result Fault Machine α → EStateM.Result Fault Machine α → Prop
  | ok (a : α) {m m' : Machine} (like : R m m') : Related R (.ok a m) (.ok a m')
  | error (fault : Fault) {m m' : Machine} (like : R m m') :
    Related R (.error fault m) (.error fault m')

/-- An operation comes to the same on related machines, and leaves related machines. -/
def Respects (R : Machine → Machine → Prop) (x : Operation α) : Prop :=
  ∀ ⦃m m' : Machine⦄, R m m' → Related R (x m) (x m')

theorem Related.after {x y : Operation α} {m m' : Machine} (h : Related R (x m) (y m')) :
    R (after x m) (after y m') := by
  unfold Operation.after
  revert h
  generalize x m = r
  generalize y m' = r'
  rintro (⟨a, like⟩ | ⟨fault, like⟩)
  · exact like
  · exact like

/-- What follows may go by what was left before it. -/
theorem Related.bind {x y : Operation α} {f g : α → Operation β} {m m' : Machine}
    (first : Related R (x m) (y m')) (rest : ∀ a m₁ m₁', x m = .ok a m₁ → y m' = .ok a m₁' →
      R m₁ m₁' → Related R (f a m₁) (g a m₁')) : Related R ((x >>= f) m) ((y >>= g) m') := by
  rw [bind_apply, bind_apply]
  generalize result : x m = r at first
  generalize result' : y m' = r' at first
  cases first with
  | ok a like => exact rest a _ _ result result' like
  | error fault like => exact .error fault like

theorem Respects.bind {x : Operation α} {f : α → Operation β} (hx : Respects R x)
    (hf : ∀ a, Respects R (f a)) : Respects R (x >>= f) :=
  fun _ _ like => (hx like).bind fun a _ _ _ _ like' => hf a like'

theorem Respects.pure (a : α) : Respects R (Pure.pure a) := fun _ _ like => .ok a like

theorem Respects.throw (fault : Fault) : Respects R (MonadExcept.throw fault : Operation α) :=
  fun _ _ like => .error fault like

theorem Respects.ofExcept (x : Except Fault α) : Respects R (ofExcept x : Operation α) := by
  cases x with
  | ok a => exact pure a
  | error fault => exact throw fault

end Operation

namespace Machine

/-- A dispatch does not change whether the machine shows how it goes on. -/
theorem keeps_verbose_dispatch : Keeps Machine.verbose dispatch := by
  have moved {α : Type} (move : Scheduler → Except Fault α × Scheduler) :
      Keeps Machine.verbose (Operation.schedule move) := by
    intro m
    unfold after Operation.schedule
    cases move m.scheduler with
    | mk outcome s => cases outcome <;> rfl
  refine (moved _).bind fun selected => ?_
  cases selected <;> exact fun _ => rfl

end Machine

/-! ### Likeness -/

/-- A relation between machines that agree in all that operations go by. It is kept if the same is done
to both, but it need not be kept if an instruction is counted without its pause. -/
structure Likeness (R : Machine → Machine → Prop) : Prop where
  bare {m m'} : R m m' → m.bare = m'.bare
  memory {m m'} : R m m' → ∀ memory, R { m with memory } { m' with memory }
  clock {m m'} : R m m' → ∀ clock, R { m with clock } { m' with clock }
  current {m m'} : R m m' → ∀ current, R { m with current } { m' with current }
  nextAddress {m m'} : R m m' → ∀ nextAddress, R { m with nextAddress } { m' with nextAddress }
  inputs {m m'} : R m m' → ∀ inputs, R { m with inputs } { m' with inputs }
  /-- The new schedulers have to be the same only if the old ones and the quanta are. -/
  scheduler {m m' s s'} : R m m' → s.bare = s'.bare →
    (m.quantum = m'.quantum → m.scheduler = m'.scheduler → s = s') →
    R { m with scheduler := s } { m' with scheduler := s' }
  metrics {m m' f} : R m m' → Metrics.Steady f →
    R { m with metrics := f m.metrics } { m' with metrics := f m'.metrics }
  told {m m' es} : R m m' → (∀ e ∈ es, Event.isDisplay e = false) →
    R (m.recordAll es) (m'.recordAll es)
  shown {m m' n} : R m m' → (Event.notice n).isDisplay →
    R (if m.verbose then m.record (.notice n) else m) (if m'.verbose then m'.record (.notice n) else m')
  counted (key : Int) : Respects R (Machine.countInstruction key)

/-- A likeness that is kept when a file is written. -/
structure Likeness.Filing (R : Machine → Machine → Prop) : Prop extends Likeness R where
  storage {m m' path content storage} : R m m' → m.storage.write path content = .ok storage →
    R { m with storage } { m' with storage }

/-- A likeness of machines with the same quanta and the same measurements. -/
structure Likeness.Timing (R : Machine → Machine → Prop) : Prop extends Likeness.Filing R where
  quantum {m m'} : R m m' → m.quantum = m'.quantum
  processes {m m'} : R m m' → m.scheduler = m'.scheduler
  measured {m m'} : R m m' → m.metrics = m'.metrics

/-- If machines that are related pause in the same way, then a counted instruction is related as long as
its tick and its pause are. -/
theorem Operation.respects_countInstruction {R : Machine → Machine → Prop} (key : Int)
    (charged : ∀ {m m'}, R m m' → R (m.charge key) (m'.charge key))
    (settings : ∀ {m m'}, R m m' → m.delay = m'.delay ∧ m.sleep = m'.sleep)
    (paused : ∀ {m m'}, R m m' → ∀ delay, R (m.record (.pause delay)) (m'.record (.pause delay))) :
    Respects R (Machine.countInstruction key) := by
  intro m m' like
  have like' := charged like
  obtain ⟨delay, sleep⟩ := settings like'
  rw [Machine.countInstruction_eq_pause, Machine.countInstruction_eq_pause]
  unfold pause
  rw [bind_apply, bind_apply, get_apply, get_apply]
  dsimp only
  rw [← delay, ← sleep]
  split
  · exact .ok () like'
  · cases (m.charge key).sleep.refusal? (m.charge key).delay with
    | some fault => exact .error fault like'
    | none => exact .ok () (paused like' _)

namespace Likeness

variable {α β : Type} {R : Machine → Machine → Prop} (L : Likeness R)

include L

/-! ### Building blocks -/

/-- What is read off the bare machine is the same in both. -/
theorem same {γ : Type} (view : Machine → γ) (bare : ∀ m : Machine, view m.bare = view m)
    {m m' : Machine} (like : R m m') : view m = view m' := by
  rw [← bare m, L.bare like, bare m']

/-- A look at the bare machine. -/
theorem look {f : Machine → Operation β} (hf : ∀ m, Respects R (f m))
    (bare : ∀ m : Machine, f m.bare = f m) : Respects R (get >>= f) := by
  intro m m' like
  show Related R (f m m) (f m' m')
  rw [← L.same f bare like]
  exact hf m like

theorem pidOf (key : Int) : Respects R (Operation.pidOf key) := by
  intro m m' like
  rw [pidOf_apply, pidOf_apply, L.same (fun m => m.scheduler.pidOf key)
    (fun m => m.scheduler.pidOf_bare key) like]
  exact .ok _ like

/-- A look at a process apart from its quantum. -/
theorem process {key : Int} {f : ControlBlock → Operation β} (hf : ∀ p, Respects R (f p))
    (bare : ∀ p : ControlBlock, f p.bare = f p) : Respects R (Operation.process key >>= f) := by
  intro m m' like
  have known := L.same (fun m => (m.scheduler.process? key).map ControlBlock.bare)
    (fun m => by
      rw [show m.bare.scheduler = m.scheduler.bare from rfl, Scheduler.process?_bare,
        Option.map_map]
      rfl) like
  have looked : ∀ m : Machine, (Operation.process key >>= f) m
      = ((m.scheduler.process? key).map ControlBlock.bare).elim (.error (.unknownProcess key) m)
          fun p => f p m := by
    intro m
    rw [bind_apply]
    cases known : m.scheduler.process? key with
    | none =>
      have unknown : Operation.process key m = .error (.unknownProcess key) m := by
        have nobody : m.scheduler.processes.process? key = none := known
        simp only [Operation.process, Scheduler.process, nobody]
      rw [unknown]
      rfl
    | some p =>
      rw [process_apply known]
      exact congrFun (bare p).symm m
  rw [looked, looked, ← known]
  cases (m.scheduler.process? key).map ControlBlock.bare with
  | none => exact .error _ like
  | some p => exact hf p like

theorem schedule {move : Scheduler → Except Fault α × Scheduler}
    (bare : ∀ s : Scheduler, move s.bare = ((move s).1, (move s).2.bare)) :
    Respects R (Operation.schedule move) := by
  intro m m' like
  have schedulers : m.scheduler.bare = m'.scheduler.bare := congrArg Machine.scheduler (L.bare like)
  have moved := (bare m.scheduler).symm.trans ((congrArg move schedulers).trans (bare m'.scheduler))
  obtain ⟨results, left⟩ := Prod.mk.inj moved
  have kept := L.scheduler like left fun _ same => by rw [same]
  unfold Operation.schedule
  revert results kept
  generalize move m.scheduler = r
  generalize move m'.scheduler = r'
  obtain ⟨result, s⟩ := r
  obtain ⟨result', s'⟩ := r'
  rintro results kept
  cases results
  cases result with
  | ok a => exact .ok a kept
  | error fault => exact .error fault kept

theorem reschedule {move : Scheduler → Scheduler}
    (bare : ∀ s : Scheduler, (move s).bare = move s.bare) : Respects R (Operation.reschedule move) := by
  intro m m' like
  have schedulers : m.scheduler.bare = m'.scheduler.bare := congrArg Machine.scheduler (L.bare like)
  refine .ok () (L.scheduler like ?_ fun _ same => by rw [same])
  rw [bare, bare, schedulers]

theorem amend {key : Int} {f : ControlBlock → ControlBlock} (bare : ∀ p, (f p).bare = f p.bare) :
    Respects R (Operation.amend key f) :=
  L.reschedule fun s => s.bare_amend key bare

theorem tick (n : Int) : Respects R (Operation.tick n) := by
  intro m m' like
  have clock : m.clock = m'.clock := L.same Machine.clock (fun _ => rfl) like
  rw [tick_apply, tick_apply, clock]
  exact .ok _ (L.clock like _)

theorem measure {f : Metrics → Metrics} (steady : Metrics.Steady f) :
    Respects R (Operation.measure f) :=
  fun _ _ like => .ok () (L.metrics like steady)

theorem setCurrent (current : Option Int) : Respects R (modify fun m => { m with current }) :=
  fun _ _ like => .ok _ (L.current like current)

theorem recordAll {es : List Event} (matter : ∀ e ∈ es, e.isDisplay = false) :
    Respects R (modify fun m => m.recordAll es) :=
  fun _ _ like => .ok _ (L.told like matter)

theorem record {m m' : Machine} (like : R m m') {e : Event} (matter : e.isDisplay = false) :
    R (m.record e) (m'.record e) := by
  rw [m.record_eq, m'.record_eq]
  exact L.told like (by simpa using matter)

theorem emit {e : Event} (matter : e.isDisplay = false) : Respects R (Operation.emit e) :=
  fun _ _ like => .ok () (L.record like matter)

theorem say {n : Notice} (matter : (Event.notice n).isDisplay = false) :
    Respects R (Operation.say n) :=
  L.emit matter

theorem announce (given : Int) {n : Notice} (matter : (Event.notice n).isDisplay = false) :
    Respects R (Operation.announce given n) :=
  (Respects.ofExcept _).bind fun _ => L.say matter

theorem conclude {es : List Event} (matter : ∀ e ∈ es, e.isDisplay = false)
    (outcome : Except Fault Unit) : Respects R (Operation.conclude es outcome) := by
  intro m m' like
  have told := L.told like matter
  cases outcome with
  | ok => exact .ok () told
  | error fault => exact .error fault told

theorem writeSlot (address : Int) (s : Slot) : Respects R (Operation.writeSlot address s) := by
  intro m m' like
  unfold Operation.writeSlot
  rw [← L.same Machine.memory (fun _ => rfl) like]
  cases m.memory.write? address s with
  | ok memory => exact .ok () (L.memory like memory)
  | error fault => exact .error fault like

theorem ask (message : String) : Respects R (Operation.ask message) := by
  intro m m' like
  have asked := L.record like (e := .prompt message) rfl
  have inputs : m.inputs = m'.inputs := L.same Machine.inputs (fun _ => rfl) like
  cases left : m.inputs with
  | nil =>
    rw [ask_of_nil left, ask_of_nil (inputs ▸ left)]
    exact .error _ asked
  | cons answer rest =>
    rw [ask_of_cons left, ask_of_cons (inputs ▸ left)]
    exact .ok answer (L.inputs asked rest)

/-- A notice for display, if the machine shows how it goes on, and then something else. -/
theorem shown_bind {n : Notice} {x : Operation β} (display : (Event.notice n).isDisplay)
    (hx : Respects R x) {m m' : Machine} (like : R m m') :
    Related R ((if m.verbose then do Operation.say n; x else x) m)
      ((if m'.verbose then do Operation.say n; x else x) m') := by
  have next := hx (L.shown like display)
  split_ifs at next ⊢ <;> exact next

/-! ### Instructions -/

theorem complain (key : Int) (c : Complaint) : Respects R (Machine.complain key c) :=
  (L.pidOf key).bind fun _ => L.say rfl

theorem fileFailed (key : Int) (fault : FileFault) : Respects R (Machine.fileFailed key fault) := by
  unfold Machine.fileFailed
  split
  · exact L.complain key _
  · exact .throw _

theorem bindName (key : Int) (name value : String) :
    Respects R (Machine.bindName key name value) := by
  unfold Machine.bindName
  split
  · exact L.complain key _
  · refine L.process (fun p => ?_) fun _ => rfl
    split
    · exact L.complain key _
    · exact (L.writeSlot _ _).bind fun _ => L.amend fun _ => rfl

theorem assign (key : Int) (name : String) (source : Source) :
    Respects R (Machine.assign key name source) := by
  unfold Machine.assign
  cases source with
  | input => exact (L.ask _).bind fun _ => L.bindName key name _
  | literal value => exact L.bindName key name value
  | file path =>
    refine L.look (fun m => ?_) fun _ => rfl
    split
    · exact L.bindName key name _
    · exact L.fileFailed key _

theorem print (key : Int) (name : String) : Respects R (Machine.print key name) := by
  refine L.look (fun m => ?_) fun _ => rfl
  split
  · exact L.emit rfl
  · exact L.complain key _

theorem printFromTo (key : Int) (first last : String) :
    Respects R (Machine.printFromTo key first last) := by
  refine L.look (fun m => ?_) fun _ => rfl
  dsimp only
  split
  · exact L.complain key _
  · exact L.complain key _
  · refine L.recordAll fun e he => ?_
    obtain ⟨i, -, rfl⟩ := List.mem_map.1 he
    rfl

theorem readFile (key : Int) (path name : String) : Respects R (Machine.readFile key path name) := by
  unfold Machine.readFile
  split
  · exact L.complain key _
  · refine L.look (fun m => ?_) fun _ => rfl
    split
    · exact L.fileFailed key _
    · split
      · exact L.complain key _
      · split
        · exact L.writeSlot _ _
        · exact .pure ()

theorem semWait (key : Int) (r : Resource) : Respects R (Machine.semWait key r) := by
  refine (L.schedule fun s => ?_).bind fun acquired => ?_
  · rw [s.semWait_bare key r]
  · split
    · exact .pure acquired
    · exact (L.pidOf key).bind fun _ => (L.say rfl).bind fun _ => .pure acquired

theorem semSignal (r : Resource) : Respects R (Machine.semSignal r) := by
  refine (L.schedule fun s => s.semSignal_bare r).bind fun woken => ?_
  cases woken with
  | none => exact .pure ()
  | some key => exact (L.pidOf key).bind fun _ => L.say rfl

/-! ### Turns -/

/-- A process is recorded by its times. -/
theorem terminate (key : Int) : Respects R (Machine.terminate key) := by
  refine L.look (fun m => ?_) fun _ => rfl
  refine .bind (L.amend fun _ => rfl) fun _ => .bind (L.reschedule fun s => s.bare_terminate key)
    fun _ => ?_
  refine L.process (fun p => ?_) fun _ => rfl
  intro m₁ m₁' like
  rw [bind_apply, bind_apply, get_apply, get_apply]
  dsimp only
  unfold Metrics.logProcess
  cases Record.ofProcess? p with
  | none => exact .error _ like
  | some r => exact L.record (L.metrics like (.logRecord r)) rfl |> .ok ()

theorem leave (key : Int) : Respects R (Machine.leave key) := by
  refine (L.setCurrent none).bind fun _ => L.process (fun p => ?_) fun _ => rfl
  split
  · exact .pure ()
  · refine L.look (fun m => ?_) fun _ => rfl
    split
    · exact L.reschedule fun s => s.bare_preempt key
    · exact L.terminate key

theorem dispatch : Respects R Machine.dispatch := by
  refine (L.schedule fun s => s.selectNext_bare).bind fun chosen => ?_
  cases chosen with
  | none => exact .pure none
  | some key =>
    refine L.look (fun m => ?_) fun _ => rfl
    refine .bind (L.amend fun _ => rfl) fun _ => .bind (L.pidOf key) fun pid => ?_
    refine .bind (L.setCurrent (some pid)) fun _ => .bind (L.measure .countSwitch) fun _ => ?_
    exact .bind (L.say rfl) fun _ => .pure (some pid)

theorem promote : Respects R Machine.promote := by
  refine L.look (fun m => ?_) fun _ => rfl
  refine (L.schedule fun s => s.promoteEach_bare _ _).bind fun _ => L.recordAll fun e he => ?_
  obtain ⟨pid, -, rfl⟩ := List.mem_map.1 he
  rfl

/-- What is laid out after a dispatch is laid out if the machine showed how it goes on before. -/
theorem occupy : Respects R Machine.occupy := by
  intro m m' like
  unfold Machine.occupy
  rw [bind_apply, bind_apply, get_apply, get_apply]
  dsimp only
  rw [← L.same (fun m => m.isIdle && !m.scheduler.ready.isEmpty) (fun _ => rfl) like]
  split
  · refine (L.dispatch like).bind fun _ m₁ m₁' dispatched dispatched' like₁ => ?_
    rw [← Machine.keeps_verbose_dispatch.of_ok dispatched,
      ← Machine.keeps_verbose_dispatch.of_ok dispatched']
    have memory : m₁.memoryText = m₁'.memoryText := L.same _ (fun _ => rfl) like₁
    have queues : m₁.queuesText = m₁'.queuesText := L.same _ (fun _ => rfl) like₁
    have laid := L.shown (L.shown like₁ (n := .dump m₁.memoryText) rfl) (n := .dump m₁.queuesText) rfl
    have unchanged : ∀ (m : Machine) (e : Event),
        (if m.verbose then m.record e else m).verbose = m.verbose := by
      intro m e
      split <;> rfl
    have laid_out : ∀ {m : Machine}, (if m.verbose then do Machine.printMemory; Machine.printQueues
        else pure () : Operation Unit) m = .ok () (if m.verbose then
          (m.record (.notice (.dump m.memoryText))).record (.notice (.dump m.queuesText)) else m) := by
      intro m
      split <;> rfl
    rw [unchanged, unchanged] at laid
    rw [laid_out, laid_out, ← memory, ← queues]
    split_ifs at laid ⊢ <;> exact .ok () laid
  · exact .ok () like

/-- A process is given the quantum of its machine. -/
theorem createProcess (lines : List String) (release : Setting) :
    Respects R (Machine.createProcess lines release) := by
  unfold Machine.createProcess
  cases release.integer? with
  | none => exact .throw _
  | some time =>
    dsimp only
    split
    · exact .throw _
    · intro m m' like
      have schedulers : m.scheduler.bare = m'.scheduler.bare :=
        congrArg Machine.scheduler (L.bare like)
      have number : m.scheduler.processes.nextKey = m'.scheduler.processes.nextKey :=
        L.same (fun m => m.scheduler.processes.nextKey) Machine.nextKey_bare like
      have place : m.nextAddress = m'.nextAddress :=
        L.same Machine.nextAddress (fun _ => rfl) like
      rw [bind_apply, bind_apply, get_apply, get_apply]
      dsimp only
      rw [← L.same Machine.memory (fun _ => rfl) like, ← place, ← number]
      cases m.memory.load? m.nextAddress lines with
      | error fault => exact .error fault like
      | ok loaded =>
        obtain ⟨memory, last⟩ := loaded
        let key := m.scheduler.processes.nextKey
        let p := ControlBlock.create key m.quantum time m.nextAddress last
        let p' := ControlBlock.create key m'.quantum time m.nextAddress last
        have added : R { m with scheduler := (m.scheduler.add p).addPending key }
            { m' with scheduler := (m'.scheduler.add p').addPending key } := by
          refine L.scheduler like ?_ fun quantum same => ?_
          · rw [Scheduler.bare_addPending, Scheduler.bare_add, Scheduler.bare_addPending,
              Scheduler.bare_add, schedulers]
            rfl
          · rw [same, show p = p' by unfold p p'; rw [quantum]]
        have told : Respects R (do Operation.announce time (.loaded key m.nextAddress last time)
                                   return key : Operation Int) :=
          (L.announce time rfl).bind fun _ => .pure key
        exact told (L.nextAddress (L.memory added memory) (last + 1))

theorem now : Respects R (do return (← get).now) :=
  L.look (fun m => .pure m.now) fun _ => rfl

end Likeness

namespace Likeness.Filing

variable {R : Machine → Machine → Prop} (L : Likeness.Filing R)

include L

/-! ### Instructions that write files -/

theorem writeFile (key : Int) (path name : String) :
    Respects R (Machine.writeFile key path name) := by
  refine L.process (fun p m m' like => ?_) fun _ => rfl
  rw [bind_apply, bind_apply, get_apply, get_apply]
  dsimp only
  rw [← L.same (fun m => Machine.textOf m.memory p name) (fun _ => rfl) like,
    ← L.same Machine.storage (fun _ => rfl) like]
  cases written : m.storage.write path (Text.encode (Machine.textOf m.memory p name).toList) with
  | ok storage => exact .ok () (L.storage like written)
  | error fault => exact L.fileFailed key fault like

theorem execute (key : Int) (i : Instruction) : Respects R (Machine.execute key i) := by
  unfold Machine.execute
  cases i with
  | semWait r => exact L.semWait key r
  | semSignal r => exact (L.semSignal r).bind fun _ => .pure true
  | assign name source => exact (L.assign key name source).bind fun _ => .pure true
  | print name => exact (L.print key name).bind fun _ => .pure true
  | printFromTo first last => exact (L.printFromTo key first last).bind fun _ => .pure true
  | writeFile path name => exact (L.writeFile key path name).bind fun _ => .pure true
  | readFile path name => exact (L.readFile key path name).bind fun _ => .pure true
  | unknown => exact .pure true

theorem perform (key : Int) (i : Instruction) : Respects R (Machine.perform key i) := by
  refine (L.execute key i).bind fun running => (L.counted key).bind fun _ => ?_
  split
  · refine .bind (L.amend fun p => ?_) fun _ => .pure running
    unfold ControlBlock.advance
    rw [apply_ite ControlBlock.bare]
    rfl
  · exact .pure running

theorem runInstructions (key : Int) (n : Nat) : Respects R (Machine.runInstructions key n) := by
  induction n with
  | zero => exact .pure ()
  | succ n ih =>
    refine L.process (fun p m m' like => ?_) fun _ => rfl
    rw [bind_apply, bind_apply, get_apply, get_apply]
    dsimp only
    rw [← L.same Machine.memory (fun _ => rfl) like,
      ← L.same Machine.now (fun _ => rfl) like]
    cases m.memory.instructionSlot? p.pc with
    | none => exact .ok () like
    | some found =>
      obtain ⟨slot, i⟩ := found
      refine L.shown_bind rfl (.bind (L.perform key i) fun running => ?_) like
      split
      · exact ih
      · exact .pure ()

end Likeness.Filing

namespace Likeness.Timing

variable {R : Machine → Machine → Prop} (L : Likeness.Timing R)

include L

/-! ### Steps and runs -/

/-- A turn is as long as the quantum of its process. -/
theorem burst : Respects R Machine.burst := by
  refine L.look (fun m => ?_) fun _ => rfl
  split
  · exact .throw _
  · rename_i key _
    have found : Respects R (Operation.process key) := by
      intro m m' like
      unfold Operation.process
      rw [← L.processes like]
      cases m.scheduler.process key with
      | ok p => exact .ok p like
      | error fault => exact .error fault like
    refine found.bind fun p => L.look (fun m => ?_) fun _ => rfl
    refine .bind (L.runInstructions key _) fun _ => L.look (fun m => ?_) fun _ => rfl
    refine .bind (L.measure (.logSlice _)) fun _ => ?_
    exact .bind (L.leave key) fun _ => .pure p.pid

theorem proceed : Respects R Machine.proceed := by
  refine L.look (fun m => ?_) fun _ => rfl
  split
  · exact .bind (L.tick 1) fun _ => .bind (L.measure .countIdle) fun _ => .pure false
  · exact .bind L.burst fun _ => .pure true

theorem step : Respects R Machine.step :=
  L.promote.bind fun _ => L.occupy.bind fun _ => L.proceed

/-- A run is over, or it goes on. -/
theorem runSteps_of {limit : Option Int} {left taken : Nat} {rest : Operation Unit}
    (onward : Respects R rest) (goes_on : ∀ m, Machine.runSteps limit left taken m =
      if m.allTerminated then .ok () m
      else if m.isDeadlocked then .ok () (m.record (.notice (.deadlocked m.now m.scheduler.waiters)))
      else if limit.any (· ≤ (taken : Int)) then .ok () (m.record (.notice (.stopped taken m.now)))
      else rest m) : Respects R (Machine.runSteps limit left taken) := by
  intro m m' like
  rw [goes_on, goes_on, ← L.same _ Machine.allTerminated_bare like,
    ← L.same Machine.isDeadlocked (fun _ => rfl) like,
    ← L.same (fun m => m.scheduler.waiters) (fun _ => rfl) like,
    ← L.same Machine.now (fun _ => rfl) like]
  split_ifs
  · exact .ok () like
  · exact .ok () (L.record like rfl)
  · exact .ok () (L.record like rfl)
  · exact onward like

theorem runSteps (limit : Option Int) (left taken : Nat) :
    Respects R (Machine.runSteps limit left taken) := by
  induction left generalizing taken with
  | zero => exact L.runSteps_of (.throw .unending) (Machine.runSteps_eq limit 0 taken)
  | succ left ih =>
    exact L.runSteps_of (L.step.bind fun _ => ih (taken + 1))
      (Machine.runSteps_eq limit (left + 1) taken)

theorem run (limit : Option Int) : Respects R (Machine.run limit) := by
  intro m m' like
  unfold Machine.run
  rw [bind_apply, bind_apply, get_apply, get_apply]
  dsimp only
  rw [← L.quantum like, ← L.same _ Machine.stepBound_bare like]
  exact ((L.announce _ rfl).bind fun _ => (L.runSteps limit _ 0).bind fun _ => L.now) like

/-! ### Handing over -/

theorem printReport : Respects R Machine.printReport := by
  intro m m' like
  unfold Machine.printReport
  rw [bind_apply, bind_apply, get_apply, get_apply]
  dsimp only
  rw [← L.quantum like, ← L.measured like]
  exact (Respects.ofExcept _).bind (fun title => L.conclude (fun e he =>
    Event.isDisplay_of_isHandover (Metrics.isHandover_of_mem_reportEvents he)) _) like

theorem drawChart (chartFile : Option String) : Respects R (Machine.drawChart chartFile) := by
  unfold Machine.drawChart
  cases chartFile with
  | none => exact .pure ()
  | some file =>
    dsimp only
    split
    · exact .pure ()
    · intro m m' like
      rw [bind_apply, bind_apply, get_apply, get_apply]
      dsimp only
      rw [← L.quantum like, ← L.measured like]
      refine (Respects.ofExcept _).bind (fun title => ?_) like
      cases drawn : m.metrics.chartEvents file title with
      | error fault => exact .throw fault
      | ok events =>
        exact L.recordAll fun e he =>
          Event.isDisplay_of_isHandover (Metrics.isHandover_of_mem_chartEvents drawn he)

theorem exportResults (resultsFile : Option String) :
    Respects R (Machine.exportResults resultsFile) := by
  unfold Machine.exportResults
  cases resultsFile with
  | none => exact .pure ()
  | some file =>
    dsimp only
    split
    · exact .pure ()
    · intro m m' like
      rw [bind_apply, bind_apply, get_apply, get_apply]
      dsimp only
      rw [← L.measured like, ← L.same Machine.storage (fun _ => rfl) like]
      have filed : R { m with storage := (m.metrics.exportCsv m.storage file).2 }
          { m' with storage := (m.metrics.exportCsv m.storage file).2 } := by
        unfold Metrics.exportCsv
        cases saved : m.metrics.saveCsv m.storage file with
        | ok storage => exact L.storage like saved
        | error fault =>
          have storage : m.storage = m'.storage := L.same _ (fun _ => rfl) like
          show R m { m' with storage := m.storage }
          rwa [storage]
      have told : Respects R (do
          let events ← ofExcept (m.metrics.exportCsv m.storage file).1
          modify fun m => m.recordAll events : Operation Unit) := by
        cases handed : (m.metrics.exportCsv m.storage file).1 with
        | error fault => exact .throw fault
        | ok events =>
          exact L.recordAll fun e he =>
            Event.isDisplay_of_isHandover (Metrics.isHandover_of_mem_exportCsv handed he)
      exact told filed

theorem shutdown (chartFile resultsFile : Option String) :
    Respects R (Machine.shutdown chartFile resultsFile) :=
  L.printReport.bind fun _ => (L.drawChart chartFile).bind fun _ => L.exportResults resultsFile

end Likeness.Timing

end RoundRobin
