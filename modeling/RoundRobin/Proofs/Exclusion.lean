import Mathlib.Data.List.Chain
import RoundRobin.Proofs.Position
import RoundRobin.Proofs.Reachable

/-!
# Mutual exclusion

If every program waits for a resource and signals it in turns, beginning with a wait, then the one
permit of the resource and the processes between a wait and a signal of it add up to one, whatever
happens in between (`Fair`). The semaphore itself does not see to this: a signal sets the
permits to one whoever gives it. It is the programs that signal only what they hold.
-/

namespace RoundRobin

open Operation

namespace Instruction

variable {r : Resource} {i : Instruction} {l : List Instruction}

/-- Whether an instruction waits for a resource or signals it. -/
def concerns (r : Resource) (i : Instruction) : Bool := i = .semWait r ∨ i = .semSignal r

/-- Whether more waits for a resource are among some instructions than signals of it. -/
def opens (r : Resource) (l : List Instruction) : Bool :=
  l.count (.semSignal r) < l.count (.semWait r)

theorem concerns_iff : concerns r i ↔ i = .semWait r ∨ i = .semSignal r := by
  simp [concerns]

/-- Two different instructions that concern a resource are a wait and a signal. -/
theorem count_of_ne {a b : Instruction} (ha : concerns r a) (hb : concerns r b) (ne : a ≠ b) :
    [a].count (.semWait r) = [b].count (.semSignal r) := by
  rcases concerns_iff.1 ha with rfl | rfl <;> rcases concerns_iff.1 hb with rfl | rfl
  · exact absurd rfl ne
  · simp
  · simp
  · exact absurd rfl ne

/-- Where waits and signals alternate, there are as many of them between two of them, up to the
wait before and the signal after. -/
theorem count_of_isChain {a b : Instruction} (ha : concerns r a) (hb : concerns r b)
    (hl : ∀ i ∈ l, concerns r i) (chain : (a :: (l ++ [b])).IsChain (· ≠ ·)) :
    l.count (.semWait r) + [a].count (.semWait r)
      = l.count (.semSignal r) + [b].count (.semSignal r) := by
  induction l generalizing a with
  | nil =>
    have ne := (List.isChain_cons_cons.1 chain).1
    simpa using count_of_ne ha hb ne
  | cons c l ih =>
    obtain ⟨ne, chain⟩ := List.isChain_cons_cons.1 chain
    have hc := hl c List.mem_cons_self
    have rest := ih hc (fun i hi => hl i (List.mem_cons_of_mem c hi)) chain
    have turned := count_of_ne ha hc ne
    simp only [List.count_cons, List.count_nil] at rest turned ⊢
    omega

end Instruction

namespace Program

/-- Waits for a resource and signals of it alternate in a program, beginning with a wait. -/
def Alternates (P : Program) (r : Resource) : Prop :=
  (.semSignal r :: P.instructions.filter (Instruction.concerns r)).IsChain (· ≠ ·)

instance (P : Program) (r : Resource) : Decidable (P.Alternates r) :=
  inferInstanceAs (Decidable (List.IsChain _ _))

/-- Whether a position is behind more waits for a resource than signals of it. -/
def inSection (ps : List Program) (r : Resource) (x : Int × Nat) : Bool :=
  Instruction.opens r (behind ps x)

variable {ps : List Program} {r : Resource} {x : Int × Nat} {i : Instruction}

theorem isChain_code (alternating : ∀ P ∈ ps, P.Alternates r) (key : Int) :
    (.semSignal r :: (code ps key).filter (Instruction.concerns r)).IsChain (· ≠ ·) := by
  rw [code]
  cases hP : under ps key with
  | none => exact List.isChain_singleton _
  | some P => exact alternating P (mem_of_under hP)

/-- In front of an instruction that concerns a resource, what is behind is even before a wait and
has one wait more before a signal. -/
theorem count_behind (alternating : ∀ P ∈ ps, P.Alternates r) (hi : Instruction.concerns r i)
    (next : (ahead ps x).head? = some i) :
    (behind ps x).count (.semWait r)
      = (behind ps x).count (.semSignal r) + [i].count (.semSignal r) := by
  have chain := isChain_code alternating x.1
  obtain ⟨rest, front⟩ := List.head?_eq_some_iff.1 next
  rw [← behind_append_ahead ps x, front, List.filter_append, List.filter_cons_of_pos hi,
    List.append_cons, ← List.cons_append] at chain
  have own : Instruction.concerns r (.semSignal r) := by simp [Instruction.concerns]
  have own' : Instruction.concerns r (.semWait r) := by simp [Instruction.concerns]
  have balance := Instruction.count_of_isChain own hi (fun j hj => (List.mem_filter.1 hj).2)
    chain.left_of_append
  rw [List.count_filter own, List.count_filter own'] at balance
  simpa using balance

end Program

namespace Instruction

variable {r : Resource} {i : Instruction} {l : List Instruction}

theorem opens_append_of_ne (wait : i ≠ .semWait r) (signal : i ≠ .semSignal r) :
    opens r (l ++ [i]) = opens r l := by
  simp [opens, List.count_append, wait, signal]

end Instruction

/-- The permits of a resource and the processes between a wait and a signal add up to one. -/
def Fair (ps : List Program) (r : Resource) (s : Scheduler) : Prop :=
  0 ≤ s.permits r ∧ s.permits r = 1 - s.positions.countP (Program.inSection ps r)

namespace Fair

variable {ps : List Program} {r : Resource} {s s' : Scheduler} {m m' : Machine}

theorem of_alike (h : Fair ps r s) (alike : Alike s s') : Fair ps r s' := by
  rw [Fair, alike.permits, alike.positions]
  exact h

/-- A completed instruction opens a section with the permit or closes the one that is open. -/
theorem complete (h : Fair ps r m.scheduler) (sound : Sound ps m)
    (alternating : ∀ P ∈ ps, P.Alternates r) {key : Int} {p : ControlBlock} {i : Instruction}
    (c : Completion key p i m m') : Fair ps r m'.scheduler := by
  obtain ⟨l, l', k, before, after, next⟩ := sound.positions_of_completion c
  obtain ⟨nonneg, sum⟩ := h
  have behind := Program.behind_succ next
  rw [before, List.countP_append, List.countP_cons, Program.inSection] at sum
  rw [Fair, after, List.countP_append, List.countP_cons, Program.inSection, behind]
  obtain ⟨memory, s, effect, kept, -, -⟩ := c.effect
  rw [kept]
  by_cases wait : i = .semWait r
  · subst wait
    have even := Program.count_behind alternating (by simp [Instruction.concerns]) next
    obtain ⟨left, taken⟩ := effect.permits_of_wait
    have closed : Instruction.opens r (Program.behind ps (key, k)) = false := by
      simp [Instruction.opens, even]
    have opened : Instruction.opens r (Program.behind ps (key, k) ++ [.semWait r]) = true := by
      simp [Instruction.opens, even]
    rw [closed] at sum
    rw [opened, taken]
    simp only [Bool.false_eq_true, if_false, if_true] at sum ⊢
    omega
  · by_cases signal : i = .semSignal r
    · subst signal
      have odd := Program.count_behind alternating (by simp [Instruction.concerns]) next
      have opened : Instruction.opens r (Program.behind ps (key, k)) = true := by
        simp [Instruction.opens, odd]
      have closed : Instruction.opens r (Program.behind ps (key, k) ++ [.semSignal r]) = false := by
        simp [Instruction.opens, odd]
      rw [opened] at sum
      rw [closed, effect.permits_of_signal]
      simp only [Bool.false_eq_true, if_false, if_true] at sum ⊢
      omega
    · rw [Instruction.opens_append_of_ne wait signal, effect.permits_of_ne wait signal]
      exact ⟨nonneg, sum⟩

theorem move (h : Fair ps r m.scheduler) (sound : Sound ps m)
    (rests : m.Rests) (alternating : ∀ P ∈ ps, P.Alternates r) (move : Move m m') :
    Fair ps r m'.scheduler := by
  cases move with
  | idle => exact h
  | stall stall =>
    obtain ⟨-, -, refused⟩ := stall
    exact absurd rests refused
  | linger stuck => exact absurd rests stuck.refused
  | work work =>
    rcases work.alike with ⟨key, p, i, completion⟩ | alike
    · exact h.complete sound alternating completion
    · exact h.of_alike alike

/-- A process that has just arrived is in no section. -/
theorem load (h : Fair ps r m.scheduler) (sound : Sound ps m) {P : Program} (load : Load P m m') :
    Fair (ps ++ [P]) r m'.scheduler := by
  obtain ⟨positions, permits⟩ := load.positions
  have before : m.scheduler.positions.countP (Program.inSection (ps ++ [P]) r)
      = m.scheduler.positions.countP (Program.inSection ps r) := by
    apply List.countP_congr
    intro x hx
    rw [Program.inSection, Program.behind, sound.code_append_of_mem P hx]
    rfl
  rw [Fair, permits, positions, List.countP_append, before]
  obtain ⟨nonneg, sum⟩ := h
  refine ⟨nonneg, sum.trans ?_⟩
  simp [Program.inSection, Program.behind, Instruction.opens]

end Fair

/-! ### The processes in memory -/

/-- The instructions in memory that a process has behind it. -/
def Memory.behind (m : Memory) (p : ControlBlock) : List Instruction :=
  (List.range (p.pc - p.lowerBound).toNat).filterMap fun (i : Nat) =>
    (m.instructionSlot? (p.lowerBound + i)).map Prod.snd

/-- Whether a process is between a wait for a resource and a signal of it. -/
def Machine.inSection (m : Machine) (r : Resource) (p : ControlBlock) : Bool :=
  Instruction.opens r (m.memory.behind p)

/-- The number of processes that are between a wait for a resource and a signal of it. -/
def Machine.holders (m : Machine) (r : Resource) : Nat :=
  m.scheduler.processes.countP (m.inSection r)

theorem Holds.behind_eq {m : Memory} {P : Program} {p : ControlBlock} (h : Holds m P p) :
    m.behind p = P.done p := by
  have upTo : ∀ n ≤ P.lines.length, (List.range n).filterMap (fun (i : Nat) =>
      (m.instructionSlot? (p.lowerBound + i)).map Prod.snd) = P.instructions.take n := by
    intro n
    induction n with
    | zero => exact fun _ => rfl
    | succ n ih =>
      intro small
      have inside : n < P.lines.length := small
      have slot := h.line n _ (List.getElem?_eq_getElem inside)
      have read : (m.instructionSlot? (p.lowerBound + n)).map Prod.snd = P.instructions[n]? := by
        rw [Memory.instructionSlot?_of_slot? slot, Slot.instruction?_ofLine, Program.instructions,
          List.getElem?_map, List.getElem?_eq_getElem inside]
        rfl
      rw [List.range_succ, List.filterMap_append, ih (by omega), List.take_add_one]
      simp only [List.filterMap_cons, List.filterMap_nil, read]
      cases P.instructions[n]? <;> rfl
  exact upTo _ h.offset_le

namespace Sound

variable {ps : List Program} {m : Machine} {r : Resource} {key : Int} {p : ControlBlock}

theorem inSection_eq (h : Sound ps m) (known : m.scheduler.process? key = some p) :
    m.inSection r p = Program.inSection ps r p.position := by
  obtain ⟨P, hP, placed⟩ := h.layout.lookup known
  rw [Machine.inSection, placed.holds.behind_eq, Program.inSection, h.position_eq known,
    Program.behind, Program.code_eq hP]
  rfl

theorem holders_eq (h : Sound ps m) (r : Resource) :
    m.holders r = m.scheduler.positions.countP (Program.inSection ps r) := by
  rw [Machine.holders, Scheduler.positions, List.countP_map]
  apply List.countP_congr
  intro p hp
  obtain ⟨key, known⟩ := Scheduler.process?_of_mem hp
  rw [h.inSection_eq known]
  rfl

/-- If only one process is in its section, two that are in theirs are the same. -/
theorem eq_of_inSection (h : Sound ps m) (alone : m.holders r ≤ 1)
    (known : m.scheduler.process? key = some p) (inside : m.inSection r p) {key' : Int}
    {p' : ControlBlock} (known' : m.scheduler.process? key' = some p')
    (inside' : m.inSection r p') : key = key' := by
  by_contra ne
  rw [h.inSection_eq known] at inside
  rw [h.inSection_eq known'] at inside'
  have other : p'.position ≠ p.position := by
    rw [h.position_eq known, h.position_eq known']
    exact fun e => ne (congrArg Prod.fst e).symm
  obtain ⟨l, l', split, -⟩ := Scheduler.map_amend_split ControlBlock.position known id
  rw [← Scheduler.positions] at split
  have mem := Scheduler.position_mem_positions known'
  rw [h.holders_eq, split, List.countP_append, List.countP_cons, if_pos inside] at alone
  rw [split] at mem
  rcases List.mem_append.1 mem with before | after
  · have := List.countP_pos_iff.2 ⟨_, before, inside'⟩
    omega
  · have later := (List.mem_cons.1 after).resolve_left other
    have := List.countP_pos_iff.2 ⟨_, later, inside'⟩
    omega

end Sound

theorem Fair.empty (r : Resource) : Fair [] r {} := by
  refine ⟨?_, ?_⟩ <;> cases r <;> decide

/-- A resource is dealt with fairly wherever the machine gets. -/
theorem Passed.fair {ps : List Program} {m : Machine} {r : Resource} (h : Passed ps m)
    (rests : m.Rests) (alternating : ∀ P ∈ ps, P.Alternates r) : Fair ps r m.scheduler := by
  have invariant := h.invariant_of_rests rests (Q := fun ps m => (∀ P ∈ ps, P.Alternates r) →
    Fair ps r m.scheduler) (fun _ _ empty _ => empty ▸ Fair.empty r) ?_ ?_
  · exact invariant.2 alternating
  · intro ps P m m' sound fair load alternating
    exact (fair fun P hP => alternating P (List.mem_append_left _ hP)).load sound load
  · intro ps m m' sound rests fair move alternating
    exact (fair alternating).move sound rests alternating move

/-- Wherever the machine gets, the permits of a resource and the processes between a wait for it and
a signal of it add up to one, if waits and signals alternate in every program and the pauses are not
refused. So no two processes are ever there together. -/
theorem Passed.exclusive {ps : List Program} {m : Machine} (h : Passed ps m) (rests : m.Rests)
    (r : Resource) (alternating : ∀ P ∈ ps, P.Alternates r) :
    (m.scheduler.semaphores.get r).count = 1 - m.holders r ∧ m.holders r ≤ 1 ∧
      ∀ key key' p p', m.scheduler.process? key = some p → m.scheduler.process? key' = some p' →
        m.inSection r p → m.inSection r p' → key = key' := by
  have sound := h.sound rests
  obtain ⟨nonneg, sum⟩ := h.fair rests alternating
  rw [← sound.holders_eq] at sum
  have alone : m.holders r ≤ 1 := by omega
  refine ⟨sum, alone, ?_⟩
  intro key key' p p' known known' inside inside'
  exact sound.eq_of_inSection alone known inside known' inside'

/-- After the first of its two instructions a process is between a wait and a signal, alone. -/
theorem Passed.exclusive_within : ∃ m, Passed [⟨["semWait file", "semSignal file"], 0⟩] m ∧
    m.Rests ∧ m.holders .file = 1 ∧ (m.scheduler.semaphores.get .file).count = 1 - m.holders .file := by
  have made := Reachable.fresh 1 10 (by decide) (by decide)
  have loaded := made.after_createProcess ["semWait file", "semSignal file"] 0 (by decide)
    (by decide)
  have passed := Passed.within loaded (k := 1) (by decide)
  exact ⟨_, passed, by decide +kernel, by decide +kernel,
    (passed.exclusive (by decide +kernel) .file (by decide +kernel)).1⟩

/-- If the pause after every instruction is refused, a process that has the permit of a resource is not
between the wait for it and the signal of it, but still in front of the wait. -/
theorem Passed.exclusive_restless : ∃ m, Passed [⟨["semWait file", "semSignal file"], 0⟩] m ∧
    (⟨["semWait file", "semSignal file"], 0⟩ : Program).Alternates .file ∧
    (m.scheduler.semaphores.get .file).count ≠ 1 - m.holders .file := by
  have made := Reachable.restless 5 10 (by decide) (by decide)
  have loaded := made.after_createProcess ["semWait file", "semSignal file"] 0 (by decide)
    (by decide)
  exact ⟨_, .reached loaded.step, by decide +kernel, by decide +kernel⟩

end RoundRobin
