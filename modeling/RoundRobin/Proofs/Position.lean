import RoundRobin.Proofs.Load

/-!
# How far the processes have come

The position of a process is its number and how many lines it has behind it. Together with the
programs that were loaded, it tells the instructions behind the process and those ahead of it,
whatever happens to the memory. Of all that is done, only a completed instruction changes a
position (`Work.alike`), that of its own process and by one line (`Sound.positions_of_completion`).
-/

namespace RoundRobin

/-- The number of a process and how many lines of its program it has behind it. -/
def ControlBlock.position (p : ControlBlock) : Int × Nat := (p.pid, p.offset)

theorem ControlBlock.position_of_place {p p' : ControlBlock} (same : p'.place = p.place) :
    p'.position = p.position := by
  have pid : p'.pid = p.pid := (congrArg ControlBlock.pid same :)
  have offset : p'.offset = p.offset := (congrArg ControlBlock.offset same :)
  rw [position, pid, offset, position]

namespace Program

/-- The instructions of the program under a key. -/
def code (ps : List Program) (key : Int) : List Instruction :=
  ((under ps key).map instructions).getD []

/-- The instructions behind a position. -/
def behind (ps : List Program) (x : Int × Nat) : List Instruction := (code ps x.1).take x.2

/-- The instructions ahead of a position. -/
def ahead (ps : List Program) (x : Int × Nat) : List Instruction := (code ps x.1).drop x.2

variable {ps : List Program} {P : Program} {key : Int} {k : Nat} {i : Instruction}

theorem code_eq (h : under ps key = some P) : code ps key = P.instructions := by
  rw [code, h]
  rfl

theorem code_append (Q : Program) (h : under ps key = some P) :
    code (ps ++ [Q]) key = code ps key := by
  rw [code_eq h, code_eq (under_append_of_some Q h)]

theorem behind_append_ahead (ps : List Program) (x : Int × Nat) :
    behind ps x ++ ahead ps x = code ps x.1 :=
  List.take_append_drop _ _

/-- One line further, the instruction that was next is behind. -/
theorem behind_succ (next : (ahead ps (key, k)).head? = some i) :
    behind ps (key, k + 1) = behind ps (key, k) ++ [i] := by
  rw [ahead, List.head?_drop] at next
  rw [behind, List.take_add_one, next]
  rfl

/-- One line further, the instruction that was next is no longer ahead. -/
theorem ahead_eq_cons (next : (ahead ps (key, k)).head? = some i) :
    ahead ps (key, k) = i :: ahead ps (key, k + 1) := by
  rw [ahead, List.head?_drop] at next
  obtain ⟨inside, at_k⟩ := List.getElem?_eq_some_iff.1 next
  rw [ahead, List.drop_eq_getElem_cons inside, at_k]
  rfl

end Program

namespace Scheduler

variable {s s' : Scheduler} {key : Int} {p : ControlBlock}

/-- The positions of all processes, in the order of their creation. -/
def positions (s : Scheduler) : List (Int × Nat) := s.processes.map ControlBlock.position

/-- The position of the process under a key. -/
def position? (s : Scheduler) (key : Int) : Option (Int × Nat) :=
  (s.process? key).map ControlBlock.position

theorem position?_eq (same : s'.positions = s.positions) (key : Int) :
    s'.position? key = s.position? key :=
  map_process?_of_map same key

theorem positions_of_place (length : s'.processes.length = s.processes.length)
    (place : ∀ k p', s'.process? k = some p' → ∃ p, s.process? k = some p ∧ p'.place = p.place) :
    s'.positions = s.positions := by
  apply map_processes_eq length
  intro k p' hp'
  obtain ⟨p, hp, same⟩ := place k p' hp'
  exact ⟨p, hp, ControlBlock.position_of_place same⟩

theorem positions_of_transfer {a b : Station} (t : Transfer key a b s s') :
    s'.positions = s.positions :=
  positions_of_place t.length t.place

theorem positions_amend {f : ControlBlock → ControlBlock} (same : ∀ p, (f p).position = p.position) :
    (s.amend key f).positions = s.positions :=
  map_amend s key same

theorem positions_counted (s : Scheduler) (key : Int) :
    (s.amend key ControlBlock.counted).positions = s.positions :=
  positions_amend fun _ => rfl

@[simp]
theorem positions_withPermits (s : Scheduler) (r : Resource) (n : Int) :
    (s.withPermits r n).positions = s.positions := rfl

theorem position_mem_positions (hp : s.process? key = some p) : p.position ∈ s.positions := by
  obtain ⟨l, l', eq, -⟩ := map_amend_split ControlBlock.position hp id
  rw [positions, eq]
  exact List.mem_append_right l List.mem_cons_self

end Scheduler

/-- An arrival adds a position. -/
theorem Arrival.positions {p : ControlBlock} {s s' : Scheduler} (a : Arrival p s s') :
    s'.positions = s.positions ++ [p.position] := by
  rw [Scheduler.positions, a.processes, List.map_append]
  rfl

/-- A process that was just loaded has nothing behind it. -/
theorem Load.positions {P : Program} {m m' : Machine} (load : Load P m m') :
    m'.scheduler.positions = m.scheduler.positions ++ [(m.scheduler.processes.nextKey, 0)] ∧
      ∀ r, m'.scheduler.permits r = m.scheduler.permits r := by
  obtain ⟨released, loaded, arrival⟩ := load
  refine ⟨arrival.positions.trans ?_, arrival.permits⟩
  simp [ControlBlock.position, ControlBlock.offset, ControlBlock.create]

theorem Effect.positions {memory memory' : Memory} {s s' : Scheduler} {key : Int}
    {p : ControlBlock} {i : Instruction} (effect : Effect memory s key p i memory' s') :
    s'.positions = s.positions := by
  cases effect with
  | acquire | release | store | nothing => rfl
  | bind => exact Scheduler.positions_amend fun _ => rfl
  | wake front moved =>
    rw [Scheduler.positions_of_transfer moved, Scheduler.positions_withPermits]

namespace Effect

variable {memory memory' : Memory} {s s' : Scheduler} {key : Int} {p : ControlBlock}
  {i : Instruction} {r : Resource}

theorem permits_of_wait (effect : Effect memory s key p (.semWait r) memory' s') :
    0 < s.permits r ∧ s'.permits r = s.permits r - 1 := by
  cases effect with
  | acquire left => exact ⟨left, by simp⟩
  | nothing plain => exact absurd rfl (plain r).1

theorem permits_of_signal (effect : Effect memory s key p (.semSignal r) memory' s') :
    s'.permits r = 1 := by
  cases effect with
  | release nobody => simp
  | wake front moved =>
    rw [moved.permits]
    simp
  | nothing plain => exact absurd rfl (plain r).2

/-- An instruction leaves the permits of all resources that it does not concern. -/
theorem permits_of_ne (effect : Effect memory s key p i memory' s') (wait : i ≠ .semWait r)
    (signal : i ≠ .semSignal r) : s'.permits r = s.permits r := by
  cases effect with
  | @acquire other left =>
    have ne : r ≠ other := fun e => wait (e ▸ rfl)
    simp [ne]
  | @release other nobody =>
    have ne : r ≠ other := fun e => signal (e ▸ rfl)
    simp [ne]
  | @wake other _ _ _ front moved =>
    have ne : r ≠ other := fun e => signal (e ▸ rfl)
    rw [moved.permits]
    simp [ne]
  | bind | store | nothing => rfl

end Effect

/-- Permits and queues after a completed instruction are those of its effect, and no other process
moves. -/
theorem Completion.effect {key : Int} {p : ControlBlock} {i : Instruction} {m m' : Machine}
    (c : Completion key p i m m') : ∃ memory s, Effect m.memory m.scheduler key p i memory s ∧
      (∀ r, m'.scheduler.permits r = s.permits r) ∧
      (∀ st, m'.scheduler.queue st = s.queue st) ∧
      ∀ k, k ≠ key → m'.scheduler.position? k = m.scheduler.position? k := by
  obtain @⟨memory, s, facing, effect⟩ := c
  refine ⟨memory, s, effect, fun _ => rfl, fun st => ?_, fun k ne => ?_⟩
  · exact (Scheduler.queue_amend _ _ _ _).trans (Scheduler.queue_amend _ _ _ _)
  · have counted : (s.amend key ControlBlock.counted).positions = m.scheduler.positions :=
      (Scheduler.positions_counted s key).trans effect.positions
    have advanced := Scheduler.process?_amend_of_ne (s.amend key ControlBlock.counted) ne
      ControlBlock.advance
    exact (congrArg (Option.map ControlBlock.position) advanced).trans
      (Scheduler.position?_eq counted k)

/-- The same goes for an instruction that was executed in vain, after which nobody has moved. -/
theorem Stall.effect {key : Int} {p : ControlBlock} {i : Instruction} {m m' : Machine}
    (stall : Stall key p i m m') : ∃ memory s, Effect m.memory m.scheduler key p i memory s ∧
      (∀ r, m'.scheduler.permits r = s.permits r) ∧ (∀ st, m'.scheduler.queue st = s.queue st) ∧
      m'.scheduler.positions = m.scheduler.positions := by
  obtain @⟨memory, s, facing, effect, refused⟩ := stall
  exact ⟨memory, s, effect, fun _ => rfl, fun _ => Scheduler.queue_amend _ _ _ _,
    (Scheduler.positions_counted s key).trans effect.positions⟩

/-- Two schedulers that agree on how far the processes have come and on the permits. -/
structure Alike (s s' : Scheduler) : Prop where
  positions : s'.positions = s.positions
  permits : ∀ r, s'.permits r = s.permits r

namespace Alike

variable {s s' s'' : Scheduler} {key : Int}

theorem refl (s : Scheduler) : Alike s s := ⟨rfl, fun _ => rfl⟩

theorem trans (h : Alike s s') (h' : Alike s' s'') : Alike s s'' :=
  ⟨h'.positions.trans h.positions, fun r => (h'.permits r).trans (h.permits r)⟩

theorem of_transfer {a b : Station} (t : Transfer key a b s s') : Alike s s' :=
  ⟨Scheduler.positions_of_transfer t, t.permits⟩

theorem of_amend (s : Scheduler) (key : Int) {f : ControlBlock → ControlBlock}
    (same : ∀ p, (f p).position = p.position) : Alike s (s.amend key f) :=
  ⟨Scheduler.positions_amend same, fun _ => rfl⟩

end Alike

theorem Departure.alike {key start : Int} {m m' : Machine} (d : Departure key start m m') :
    Alike m.scheduler m'.scheduler := by
  cases d with
  | yield => exact .refl _
  | preempt facing moved => exact .of_transfer moved
  | terminate current known runs at_end moved recorded =>
    have ended := Alike.of_amend m.scheduler key (f := ControlBlock.ended m.now) fun _ => rfl
    exact ended.trans (.of_transfer moved)

theorem Blocking.alike {key : Int} {p : ControlBlock} {r : Resource} {m m' : Machine}
    (b : Blocking key p r m m') : Alike m.scheduler m'.scheduler := by
  obtain ⟨facing, used_up, moved⟩ := b
  exact (Alike.of_transfer moved).trans (.of_amend _ _ fun _ => rfl)

/-- Nothing but a completed instruction changes a position or the permits. -/
theorem Work.alike {m m' : Machine} (work : Work m m') :
    (∃ key p i, Completion key p i m m') ∨ Alike m.scheduler m'.scheduler := by
  cases work with
  | outside same =>
    rw [Machine.scheduler_of_inside same]
    exact .inr (.refl _)
  | promote known stands due moved => exact .inr (.of_transfer moved)
  | dispatch dispatch =>
    obtain ⟨idle, front, known, moved⟩ := dispatch
    exact .inr ((Alike.of_transfer moved).trans (.of_amend _ _ fun _ => rfl))
  | complete completion => exact .inl ⟨_, _, _, completion⟩
  | block blocking => exact .inr blocking.alike
  | depart departure => exact .inr departure.alike

namespace Sound

variable {ps : List Program} {m m' : Machine} {key : Int} {p : ControlBlock} {i : Instruction}

theorem position_eq (h : Sound ps m) (known : m.scheduler.process? key = some p) :
    p.position = (key, p.offset) := by
  rw [ControlBlock.position, h.orderly.pid key p known]

theorem position?_eq (h : Sound ps m) (known : m.scheduler.process? key = some p) :
    m.scheduler.position? key = some (key, p.offset) := by
  rw [Scheduler.position?, known, Option.map_some, h.position_eq known]

/-- The number in a position is that of a program. -/
theorem code_append_of_mem (h : Sound ps m) (Q : Program) {x : Int × Nat}
    (hx : x ∈ m.scheduler.positions) :
    Program.code (ps ++ [Q]) x.1 = Program.code ps x.1 := by
  obtain ⟨p, hp, rfl⟩ := List.mem_map.1 hx
  obtain ⟨key, known⟩ := Scheduler.process?_of_mem hp
  obtain ⟨P, hP, -⟩ := h.layout.lookup known
  rw [h.position_eq known]
  exact Program.code_append Q hP

/-- What is ahead of a process begins with the instruction at which it stands. -/
theorem head?_ahead (h : Sound ps m) (known : m.scheduler.process? key = some p) :
    (Program.ahead ps p.position).head? = (m.memory.instructionSlot? p.pc).map Prod.snd := by
  obtain ⟨P, hP, placed⟩ := h.layout.lookup known
  rw [h.position_eq known, Program.ahead, Program.code_eq hP, List.head?_drop,
    placed.holds.instructionSlot?_pc]
  rfl

/-- A process that completed an instruction is still where it was, and then goes one line further. -/
theorem advance_of_effect (h : Sound ps m) (facing : Facing m key p i) {memory : Memory}
    {s : Scheduler} (effect : Effect m.memory m.scheduler key p i memory s) :
    ∃ q, (s.amend key ControlBlock.counted).process? key = some q ∧
      q.position = (key, p.offset) ∧ q.advance.position = (key, p.offset + 1) := by
  obtain ⟨n, hn⟩ := h.process?_of_effect facing effect
  obtain ⟨P, hP, placed, standing⟩ := h.next?_of_facing facing
  have counted := Scheduler.process?_amend_self hn ControlBlock.counted
  have holds := (((h.effect facing effect).charge key).layout.placed key P _ hP counted).holds
  have position : (ControlBlock.counted { p with bound := n }).position = (key, p.offset) :=
    (h.position_eq facing.known :)
  refine ⟨_, counted, position, ?_⟩
  rw [ControlBlock.position, holds.offset_advance standing, holds.advance_eq standing]
  exact congrArg (fun x : Int × Nat => (x.1, x.2 + 1)) position

theorem position?_of_completion (h : Sound ps m) (c : Completion key p i m m') :
    m'.scheduler.position? key = some (key, p.offset + 1) := by
  obtain ⟨facing, effect⟩ := c
  obtain ⟨q, known, -, position⟩ := h.advance_of_effect facing effect
  have advanced := Scheduler.process?_amend_self known ControlBlock.advance
  exact (congrArg (Option.map ControlBlock.position) advanced).trans (congrArg some position)

/-- A completed instruction moves its process one line further, and no other process. -/
theorem positions_of_completion (h : Sound ps m) (c : Completion key p i m m') :
    ∃ l l' k, m.scheduler.positions = l ++ (key, k) :: l' ∧
      m'.scheduler.positions = l ++ (key, k + 1) :: l' ∧
      (Program.ahead ps (key, k)).head? = some i := by
  obtain ⟨facing, effect⟩ := c
  obtain ⟨q, known, position, position'⟩ := h.advance_of_effect facing effect
  obtain ⟨l, l', before, after⟩ :=
    Scheduler.map_amend_split ControlBlock.position known ControlBlock.advance
  rw [← Scheduler.positions, Scheduler.positions_counted, effect.positions, position] at before
  rw [position'] at after
  refine ⟨l, l', p.offset, before, after, ?_⟩
  have next := h.head?_ahead facing.known
  rwa [h.position_eq facing.known, facing.instruction] at next

end Sound

end RoundRobin
