import RoundRobin.Machine.Run
import RoundRobin.Proofs.Sound

/-!
# Operations at work

What each building block of the operations does to a machine, as equations that rewrite. An
operation `Keeps` a view of the machine if the view shows the same after it, whatever comes of it,
and what is put together from such operations is one. It is `Quiet` if it changes nothing but the
files, the input and the log; most of what the system does is put together from quiet operations.
-/

namespace RoundRobin

open Machine

namespace Operation

variable {α β : Type}

@[simp]
theorem bind_apply (x : Operation α) (f : α → Operation β) (m : Machine) :
    (x >>= f) m = match x m with
      | .ok a m' => f a m'
      | .error fault m' => .error fault m' := by
  show EStateM.bind x f m = _
  unfold EStateM.bind
  cases x m <;> rfl

@[simp]
theorem pure_apply (a : α) (m : Machine) : (pure a : Operation α) m = .ok a m := rfl

@[simp]
theorem get_apply (m : Machine) : (get : Operation Machine) m = .ok m m := rfl

@[simp]
theorem set_apply (m m' : Machine) : (set m' : Operation PUnit) m = .ok ⟨⟩ m' := rfl

@[simp]
theorem modify_apply (f : Machine → Machine) (m : Machine) :
    (modify f : Operation PUnit) m = .ok ⟨⟩ (f m) := rfl

@[simp]
theorem throw_apply (fault : Fault) (m : Machine) :
    (throw fault : Operation α) m = .error fault m := rfl

@[simp]
theorem emit_apply (e : Event) (m : Machine) : emit e m = .ok () (m.record e) := rfl

@[simp]
theorem say_apply (n : Notice) (m : Machine) : say n m = .ok () (m.record (.notice n)) := rfl

theorem ofExcept_of_ok {x : Except Fault α} {a : α} (fine : x = .ok a) (m : Machine) :
    (ofExcept x : Operation α) m = .ok a m := by
  rw [fine]
  rfl

theorem ofExcept_of_error {x : Except Fault α} {fault : Fault} (failed : x = .error fault)
    (m : Machine) : (ofExcept x : Operation α) m = .error fault m := by
  rw [failed]
  rfl

/-- A notice that names a given number is written unless the number has too many digits. -/
theorem announce_apply (given : Int) (n : Notice) (m : Machine) : announce given n m
    = if Integer.isWritable given then .ok () (m.record (.notice n))
      else .error .numeralTooLong m := by
  unfold announce written
  rw [List.all_cons, List.all_nil, Bool.and_true, bind_apply]
  by_cases short : Integer.isWritable given
  · rw [if_pos short, if_pos short]
    rfl
  · rw [if_neg short, if_neg short]
    rfl

/-- A pause that is not refused comes to its end, and is seen unless it takes no time. -/
theorem pause_of_accepts {m : Machine} (rests : m.sleep.Accepts m.delay) :
    pause m = .ok () (if m.delay.isZero then m else m.record (.pause m.delay)) := by
  unfold pause
  rw [bind_apply, get_apply]
  dsimp only
  by_cases zero : m.delay.isZero
  · rw [if_pos zero, if_pos zero]
    rfl
  · rw [if_neg zero, if_neg zero, rests.resolve_left zero]
    rfl

/-- Any other pause ends in a fault of the service. -/
theorem pause_of_not_accepts {m : Machine} (refused : ¬m.sleep.Accepts m.delay) :
    ∃ fault, fault.isPause ∧ pause m = .error fault m := by
  obtain ⟨positive, some_fault⟩ := not_or.1 refused
  obtain ⟨fault, given⟩ := Option.ne_none_iff_exists'.1 some_fault
  refine ⟨fault, m.sleep.pauses m.delay fault given, ?_⟩
  unfold pause
  rw [bind_apply, get_apply]
  dsimp only
  rw [if_neg positive, given]
  rfl

@[simp]
theorem reschedule_apply (move : Scheduler → Scheduler) (m : Machine) :
    reschedule move m = .ok () { m with scheduler := move m.scheduler } := rfl

@[simp]
theorem amend_apply (key : Int) (f : ControlBlock → ControlBlock) (m : Machine) :
    amend key f m = .ok () { m with scheduler := m.scheduler.amend key f } := rfl

@[simp]
theorem pidOf_apply (key : Int) (m : Machine) : pidOf key m = .ok (m.scheduler.pidOf key) m := rfl

@[simp]
theorem measure_apply (f : Metrics → Metrics) (m : Machine) :
    Operation.measure f m = .ok () { m with metrics := f m.metrics } := rfl

@[simp]
theorem tick_apply (n : Int) (m : Machine) :
    tick n m = .ok (m.clock.tick n).now { m with clock := m.clock.tick n } := rfl

theorem ask_of_nil {m : Machine} (nothing : m.inputs = []) (message : String) :
    ask message m = .error .endOfInput (m.record (.prompt message)) := by
  unfold ask
  dsimp only [record]
  rw [nothing]

theorem ask_of_cons {m : Machine} {answer : String} {rest : List String}
    (given : m.inputs = answer :: rest) (message : String) :
    ask message m = .ok answer { m.record (.prompt message) with inputs := rest } := by
  unfold ask
  dsimp only [record]
  rw [given]

theorem schedule_apply {move : Scheduler → Except Fault α × Scheduler} {m : Machine}
    {a : α} {s : Scheduler} (h : move m.scheduler = (.ok a, s)) :
    schedule move m = .ok a { m with scheduler := s } := by
  simp only [schedule, h]

theorem process_apply {key : Int} {p : ControlBlock} {m : Machine}
    (hp : m.scheduler.process? key = some p) : process key m = .ok p m := by
  have known : m.scheduler.processes.process? key = some p := hp
  simp only [process, Scheduler.process, known]

/-- The machine after an operation, whatever came of it. -/
def after (op : Operation α) (m : Machine) : Machine :=
  match op m with
  | .ok _ m' => m'
  | .error _ m' => m'

theorem after_of_ok {op : Operation α} {m m' : Machine} {a : α} (h : op m = .ok a m') :
    after op m = m' := by
  simp only [after, h]

theorem after_of_error {op : Operation α} {m m' : Machine} {fault : Fault}
    (h : op m = .error fault m') : after op m = m' := by
  simp only [after, h]

/-- What holds after an operation and is kept by what follows it holds after both. -/
theorem after_bind {Q : Machine → Prop} {x : Operation α} {f : α → Operation β} {m : Machine}
    (first : Q (after x m)) (rest : ∀ a m', x m = .ok a m' → Q m' → Q (after (f a) m')) :
    Q (after (x >>= f) m) := by
  unfold after at first ⊢
  rw [bind_apply]
  cases result : x m with
  | ok a m' =>
    rw [result] at first
    exact rest a m' result first
  | error fault m' =>
    rw [result] at first
    exact first

theorem after_bind_of_ok {x : Operation α} {m m' : Machine} {a : α} (h : x m = .ok a m')
    (f : α → Operation β) : after (x >>= f) m = after (f a) m' := by
  unfold after
  rw [bind_apply, h]

theorem after_bind_of_error {x : Operation α} {m m' : Machine} {fault : Fault}
    (h : x m = .error fault m') (f : α → Operation β) : after (x >>= f) m = m' := by
  unfold after
  rw [bind_apply, h]

theorem after_get_bind (f : Machine → Operation β) (m : Machine) :
    after (get >>= f) m = after (f m) m := rfl

/-- Whether an operation does not end in a fault. -/
def isOk (op : Operation α) (m : Machine) : Bool :=
  match op m with
  | .ok _ _ => true
  | .error _ _ => false

theorem ok_after {op : Operation α} {m : Machine} (fine : isOk op m) :
    ∃ a, op m = .ok a (after op m) := by
  unfold isOk at fine
  unfold after
  cases result : op m with
  | ok a m' => exact ⟨a, rfl⟩
  | error fault m' =>
    rw [result] at fine
    cases fine

theorem error_after (op : Operation α) (m : Machine) (failed : ¬isOk op m) :
    ∃ fault, op m = .error fault (after op m) := by
  unfold isOk at failed
  unfold after
  cases result : op m with
  | ok a m' =>
    rw [result] at failed
    exact absurd rfl failed
  | error fault m' => exact ⟨fault, rfl⟩

theorem ne_error_of_isOk {op : Operation α} {m m' : Machine} {fault : Fault} (fine : isOk op m) :
    op m ≠ .error fault m' := by
  intro result
  rw [isOk, result] at fine
  cases fine

/-! ### Views that are kept -/

/-- An operation that keeps what a view shows of the machine, whatever comes of it. -/
def Keeps {γ : Type} (view : Machine → γ) (op : Operation α) : Prop :=
  ∀ m, view (after op m) = view m

namespace Keeps

variable {γ : Type} {view : Machine → γ}

theorem of_ok {op : Operation α} (h : Keeps view op) {m m' : Machine} {a : α}
    (result : op m = .ok a m') : view m' = view m :=
  after_of_ok result ▸ h m

theorem of_error {op : Operation α} (h : Keeps view op) {m m' : Machine} {fault : Fault}
    (result : op m = .error fault m') : view m' = view m :=
  after_of_error result ▸ h m

theorem pure (a : α) : Keeps view (Pure.pure a) := fun _ => rfl

theorem get : Keeps view MonadState.get := fun _ => rfl

theorem throw (fault : Fault) : Keeps view (MonadExcept.throw fault : Operation α) := fun _ => rfl

theorem pidOf (key : Int) : Keeps view (Operation.pidOf key) := fun _ => rfl

theorem process (key : Int) : Keeps view (Operation.process key) := by
  intro m
  unfold after Operation.process
  cases m.scheduler.process key <;> rfl

/-- What is kept at the end of an operation is not seen to be done. -/
theorem after_bind {x : Operation α} {f : α → Operation β} (hf : ∀ a, Keeps view (f a)) (m : Machine) :
    view (after (x >>= f) m) = view (after x m) :=
  Operation.after_bind (Q := fun m' => view m' = view (after x m)) rfl fun a m' _ same =>
    (hf a m').trans same

theorem bind {x : Operation α} {f : α → Operation β} (hx : Keeps view x)
    (hf : ∀ a, Keeps view (f a)) : Keeps view (x >>= f) :=
  fun m => (after_bind hf m).trans (hx m)

/-- What follows a result starts from the machine as it is. -/
theorem ofExcept_bind {x : Except Fault α} {f : α → Operation β}
    (hf : ∀ a, x = .ok a → Keeps view (f a)) : Keeps view (ofExcept x >>= f) := by
  cases x with
  | ok a => exact hf a rfl
  | error fault => exact fun _ => rfl

end Keeps

/-! ### Quiet operations -/

/-- An operation that changes nothing but the files, the input and the log. -/
def Quiet (op : Operation α) : Prop := ∀ m, (after op m).inside = m.inside

theorem Quiet.inside_of_ok {op : Operation α} (h : Quiet op) {m m' : Machine} {a : α}
    (result : op m = .ok a m') : m'.inside = m.inside :=
  Keeps.of_ok h result

theorem Quiet.inside_of_error {op : Operation α} (h : Quiet op) {m m' : Machine} {fault : Fault}
    (result : op m = .error fault m') : m'.inside = m.inside :=
  Keeps.of_error h result

theorem quiet_pure (a : α) : Quiet (pure a) := Keeps.pure a

theorem quiet_get : Quiet get := Keeps.get

theorem quiet_throw (fault : Fault) : Quiet (throw fault : Operation α) := Keeps.throw fault

theorem quiet_emit (e : Event) : Quiet (emit e) := fun _ => rfl

theorem quiet_say (n : Notice) : Quiet (say n) := fun _ => rfl

theorem quiet_ofExcept (x : Except Fault α) : Quiet (ofExcept x : Operation α) := by
  cases x with
  | ok a => exact quiet_pure a
  | error fault => exact quiet_throw fault

theorem quiet_announce (given : Int) (n : Notice) : Quiet (announce given n) :=
  Keeps.bind (quiet_ofExcept _) fun _ => quiet_say n

theorem quiet_pidOf (key : Int) : Quiet (pidOf key) := Keeps.pidOf key

theorem quiet_process (key : Int) : Quiet (process key) := Keeps.process key

theorem quiet_ask (message : String) : Quiet (ask message) := by
  intro m
  unfold after ask
  dsimp only [record]
  cases m.inputs <;> rfl

theorem Quiet.bind {x : Operation α} {f : α → Operation β} (hx : Quiet x)
    (hf : ∀ a, Quiet (f a)) : Quiet (x >>= f) :=
  Keeps.bind hx hf

/-- After a quiet operation the next one starts from the same inside. -/
theorem Quiet.bind_cases {x : Operation α} {f : α → Operation β} (hx : Quiet x) (m : Machine) :
    (∃ a m', m'.inside = m.inside ∧ (x >>= f) m = f a m') ∨
      ∃ fault m', m'.inside = m.inside ∧ (x >>= f) m = .error fault m' := by
  rw [bind_apply]
  cases result : x m with
  | ok a m' => exact .inl ⟨a, m', hx.inside_of_ok result, rfl⟩
  | error fault m' => exact .inr ⟨fault, m', hx.inside_of_error result, rfl⟩

end Operation

open Operation

namespace Machine

@[simp]
theorem complain_apply (key : Int) (c : Complaint) (m : Machine) : complain key c m
    = .ok () (m.record (.notice (.complaint (m.scheduler.pidOf key) c))) := rfl

theorem quiet_complain (key : Int) (c : Complaint) : Quiet (complain key c) :=
  (quiet_pidOf key).bind fun _ => quiet_say _

theorem quiet_fileFailed (key : Int) (fault : FileFault) : Quiet (fileFailed key fault) := by
  unfold fileFailed
  split
  · exact quiet_complain _ _
  · exact quiet_throw _

theorem quiet_print (key : Int) (name : String) : Quiet (print key name) := by
  refine quiet_get.bind fun m => ?_
  split
  · exact quiet_emit _
  · exact quiet_complain _ _

theorem quiet_printFromTo (key : Int) (first last : String) :
    Quiet (printFromTo key first last) := by
  refine quiet_get.bind fun m => ?_
  dsimp only
  split
  · exact quiet_complain _ _
  · exact quiet_complain _ _
  · exact fun _ => rfl

theorem quiet_writeFile (key : Int) (path name : String) : Quiet (writeFile key path name) := by
  intro m
  refine (quiet_process key).bind (fun p => ?_) m
  intro m
  unfold after
  simp only [bind_apply, get_apply]
  cases m.storage.write path (Text.encode (textOf m.memory p name).toList) with
  | ok storage => rfl
  | error fault => exact quiet_fileFailed key fault m

end Machine

end RoundRobin
