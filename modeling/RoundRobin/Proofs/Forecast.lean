import RoundRobin.Proofs.Spell

/-!
# The forecast of a turn

How a turn goes can be told before it begins, from nothing but the semaphores, the quantum, and the
instructions ahead of the process. Each instruction is refused, or it is served and may wake somebody
(`Semaphores.refuses`, `serve`, `wakes`), and one that completes does just that
(`Completion.semaphores`, `Blocking.refused`). The forecast follows them up to the first that is
refused (`Semaphores.refusal?`).
-/

namespace RoundRobin

namespace Semaphores

/-- Whether an instruction would block its process. -/
def refuses (s : Semaphores) : Instruction → Bool
  | .semWait r => !(s.get r).isAvailable
  | _ => false

/-- The semaphores after an instruction that is not refused. -/
def serve (s : Semaphores) : Instruction → Semaphores
  | .semWait r => s.set r { s.get r with count := (s.get r).count - 1 }
  | .semSignal r => s.set r ⟨1, (s.get r).blocked.drop 1⟩
  | _ => s

/-- The processes that an instruction would wake. -/
def wakes (s : Semaphores) : Instruction → List Int
  | .semSignal r => (s.get r).blocked.take 1
  | _ => []

/-- How many of the given instructions can be served before one is refused, if one is. -/
def refusal? : Semaphores → List Instruction → Option Nat
  | _, [] => none
  | s, i :: rest => if s.refuses i then some 0 else (refusal? (s.serve i) rest).map (· + 1)

/-- The processes that the given instructions wake, one after the other. -/
def woken : Semaphores → List Instruction → List Int
  | _, [] => []
  | s, i :: rest => s.wakes i ++ woken (s.serve i) rest

/-- How many of the given instructions are executed in a turn: no more than the quantum, and none
behind the first that is refused. -/
def turnLength (s : Semaphores) (quantum : Nat) (ahead : List Instruction) : Nat :=
  match s.refusal? ahead with
  | some j => min quantum (min ahead.length (j + 1))
  | none => min quantum ahead.length

/-- Whether the last instruction of a turn is refused. -/
def turnBlocks (s : Semaphores) (quantum : Nat) (ahead : List Instruction) : Bool :=
  (s.refusal? ahead).map (· + 1) == some (s.turnLength quantum ahead)

/-- What becomes of a process in a turn. -/
def turnEnd (s : Semaphores) (quantum : Nat) (ahead : List Instruction) : ProcessState :=
  if s.turnBlocks quantum ahead then .blocked
  else if s.turnLength quantum ahead = ahead.length then .terminated
  else .ready

/-! ### One instruction after the other -/

section

variable {s : Semaphores} {i : Instruction} {rest : List Instruction}

theorem refusal?_cons_of_refused (refused : s.refuses i) : s.refusal? (i :: rest) = some 0 :=
  if_pos refused

theorem refusal?_cons_of_served (served : s.refuses i = false) :
    s.refusal? (i :: rest) = ((s.serve i).refusal? rest).map (· + 1) := by
  rw [refusal?, served]
  rfl

@[simp]
theorem turnLength_zero (s : Semaphores) (ahead : List Instruction) : s.turnLength 0 ahead = 0 := by
  unfold turnLength
  split <;> simp

@[simp]
theorem turnLength_nil (s : Semaphores) (quantum : Nat) : s.turnLength quantum [] = 0 :=
  Nat.min_zero quantum

theorem turnLength_cons_of_refused (refused : s.refuses i) (n : Nat) :
    s.turnLength (n + 1) (i :: rest) = 1 := by
  rw [turnLength, refusal?_cons_of_refused refused, List.length_cons]
  dsimp only
  omega

theorem turnLength_cons_of_served (served : s.refuses i = false) (n : Nat) :
    s.turnLength (n + 1) (i :: rest) = (s.serve i).turnLength n rest + 1 := by
  rw [turnLength, refusal?_cons_of_served served, turnLength, List.length_cons]
  cases (s.serve i).refusal? rest with
  | none => exact Nat.succ_min_succ n rest.length
  | some j =>
    dsimp only [Option.map_some]
    omega

@[simp]
theorem turnBlocks_zero (s : Semaphores) (ahead : List Instruction) :
    s.turnBlocks 0 ahead = false := by
  rw [turnBlocks, turnLength_zero]
  cases s.refusal? ahead <;> simp

@[simp]
theorem turnBlocks_nil (s : Semaphores) (quantum : Nat) : s.turnBlocks quantum [] = false := rfl

theorem turnBlocks_cons_of_refused (refused : s.refuses i) (n : Nat) :
    s.turnBlocks (n + 1) (i :: rest) = true := by
  rw [turnBlocks, turnLength_cons_of_refused refused, refusal?_cons_of_refused refused]
  rfl

theorem turnBlocks_cons_of_served (served : s.refuses i = false) (n : Nat) :
    s.turnBlocks (n + 1) (i :: rest) = (s.serve i).turnBlocks n rest := by
  rw [turnBlocks, turnLength_cons_of_served served, refusal?_cons_of_served served, turnBlocks]
  cases (s.serve i).refusal? rest <;> simp

theorem turnEnd_of_blocks {quantum : Nat} {ahead : List Instruction}
    (blocks : s.turnBlocks quantum ahead) : s.turnEnd quantum ahead = .blocked :=
  if_pos blocks

theorem turnEnd_of_eq {quantum : Nat} {ahead : List Instruction}
    (blocks : s.turnBlocks quantum ahead = false) (all : s.turnLength quantum ahead = ahead.length) :
    s.turnEnd quantum ahead = .terminated := by
  rw [turnEnd, if_neg (by simp [blocks]), if_pos all]

theorem turnEnd_of_lt {quantum : Nat} {ahead : List Instruction}
    (blocks : s.turnBlocks quantum ahead = false) (lt : s.turnLength quantum ahead < ahead.length) :
    s.turnEnd quantum ahead = .ready := by
  rw [turnEnd, if_neg (by simp [blocks]), if_neg (Nat.ne_of_lt lt)]

theorem turnLength_le (s : Semaphores) (quantum : Nat) (ahead : List Instruction) :
    s.turnLength quantum ahead ≤ ahead.length := by
  unfold turnLength
  split <;> omega

end

end Semaphores

/-! ### What comes true -/

theorem Semaphore.ext {s s' : Semaphore} (count : s.count = s'.count)
    (blocked : s.blocked = s'.blocked) : s = s' := by
  cases s
  cases count
  cases blocked
  rfl

theorem Semaphores.ext_get {s s' : Semaphores} (same : ∀ r, s.get r = s'.get r) : s = s' := by
  obtain ⟨file, input, output⟩ := s
  obtain ⟨file', input', output'⟩ := s'
  cases same .file
  cases same .userInput
  cases same .userOutput
  rfl

/-- After a process was woken those behind it still wait, and there is one permit. -/
theorem Transfer.semaphores_eq {s s' : Scheduler} {r : Resource} {woken : Int} {rest : Queue}
    (moved : Transfer woken (.blocked r) .ready (s.withPermits r 1) s')
    (front : s.queue (.blocked r) = woken :: rest) :
    s'.semaphores = s.semaphores.set r ⟨1, rest⟩ := by
  refine Semaphores.ext_get fun r' => Semaphore.ext ?_ ?_
  · refine (moved.permits r').trans ?_
    rw [Scheduler.permits, Scheduler.withPermits, Semaphores.get_set, Semaphores.get_set]
    split <;> rfl
  · refine (moved.queue (.blocked r')).trans ?_
    rw [if_neg (by simp), Semaphores.get_set]
    by_cases own : r' = r
    · rw [own, if_pos rfl, if_pos rfl, Scheduler.queue_withPermits, front, List.erase_cons_head]
    · rw [if_neg (by simpa using own), if_neg own, Scheduler.queue_withPermits]
      rfl

namespace Effect

variable {memory memory' : Memory} {s s' : Scheduler} {key : Int} {p : ControlBlock}
  {i : Instruction}

/-- An instruction that has its effect is not refused. -/
theorem served (effect : Effect memory s key p i memory' s') : s.semaphores.refuses i = false := by
  cases effect with
  | @acquire r left =>
    have available : 0 < (s.semaphores.get r).count := left
    simp [Semaphores.refuses, Semaphore.isAvailable, available]
  | nothing plain =>
    cases i with
    | semWait r => exact absurd rfl (plain r).1
    | _ => rfl
  | _ => rfl

theorem semaphores (effect : Effect memory s key p i memory' s') :
    s'.semaphores = s.semaphores.serve i := by
  cases effect with
  | acquire | bind | store => rfl
  | @release r nobody =>
    have nothing : (s.semaphores.get r).blocked = (s.semaphores.get r).blocked.drop 1 := by
      rw [show (s.semaphores.get r).blocked = [] from nobody]
      rfl
    exact congrArg (fun blocked => s.semaphores.set r ⟨1, blocked⟩) nothing
  | @wake r woken rest _ front moved =>
    have waiting : (s.semaphores.get r).blocked = woken :: rest := front
    rw [Semaphores.serve, waiting]
    exact moved.semaphores_eq front
  | nothing plain =>
    cases i with
    | semWait r => exact absurd rfl (plain r).1
    | semSignal r => exact absurd rfl (plain r).2
    | _ => rfl

theorem ready_eq (effect : Effect memory s key p i memory' s') :
    s'.queue .ready = s.queue .ready ++ s.semaphores.wakes i := by
  cases effect with
  | acquire | bind | store => exact (List.append_nil _).symm
  | @release r nobody =>
    have empty : (s.semaphores.get r).blocked = [] := nobody
    rw [Semaphores.wakes, empty]
    exact (List.append_nil _).symm
  | @wake r woken rest _ front moved =>
    have waiting : (s.semaphores.get r).blocked = woken :: rest := front
    rw [moved.queue, if_pos rfl, Semaphores.wakes, waiting, Scheduler.queue_withPermits]
    rfl
  | nothing plain =>
    cases i with
    | semSignal r => exact absurd rfl (plain r).2
    | _ => exact (List.append_nil _).symm

end Effect

namespace Completion

variable {m m' : Machine} {key : Int} {p : ControlBlock} {i : Instruction}

theorem served (c : Completion key p i m m') : m.scheduler.semaphores.refuses i = false := by
  obtain ⟨-, effect⟩ := c
  exact effect.served

theorem semaphores (c : Completion key p i m m') :
    m'.scheduler.semaphores = m.scheduler.semaphores.serve i := by
  obtain ⟨-, effect⟩ := c
  exact effect.semaphores

theorem ready_eq (c : Completion key p i m m') :
    m'.scheduler.ready = m.scheduler.ready ++ m.scheduler.semaphores.wakes i := by
  obtain ⟨-, effect⟩ := c
  exact effect.ready_eq

end Completion

theorem Blocking.refused {m m' : Machine} {key : Int} {p : ControlBlock} {r : Resource}
    (b : Blocking key p r m m') : m.scheduler.semaphores.refuses (.semWait r) := by
  obtain ⟨-, used_up, -⟩ := b
  have unavailable : ¬0 < (m.scheduler.semaphores.get r).count := used_up
  simp [Semaphores.refuses, Semaphore.isAvailable, unavailable]

end RoundRobin
