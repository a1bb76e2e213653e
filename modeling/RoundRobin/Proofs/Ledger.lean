import Mathlib.Data.List.Chain
import RoundRobin.Proofs.Execution
import RoundRobin.Proofs.Finality

/-!
# Instructions in order

The executions of each process lead through its program, from its first address to the next one that
it will execute: an instruction that blocked its process is executed again, and every other one is
followed by the next (`Leads`). Blocking waits for a resource are paid back by wake-ups, except for
those of the processes that are still blocked on it. Both are an invariant of all that was executed
(`Ledger`), kept by every instruction, by loading and by whatever else a step does. So every process
has completed exactly the lines behind it, each once and in order, and a terminated one has completed
all of its lines (`Reachable.executed_in_order`).
-/

namespace RoundRobin

open Operation

namespace Execution

/-- The address that is executed next: the same again if the process was blocked. -/
def next (e : Execution) : Int := if e.blocked then e.address else e.address + 1

/-- Whether it is a wait for a resource that blocked its process. -/
def blocks (r : Resource) (e : Execution) : Bool := e.blocked && e.instruction = .semWait r

/-- How many processes it woke, if it is a signal of a resource. -/
def wakes (r : Resource) (e : Execution) : Nat :=
  if e.instruction = .semSignal r then e.woken.length else 0

/-- The executions of the process under a key. -/
def own (key : Int) (l : List Execution) : List Execution := l.filter fun e => e.key = key

theorem own_concat_self (l : List Execution) (e : Execution) :
    own e.key (l ++ [e]) = own e.key l ++ [e] := by
  simp [own]

theorem own_concat_of_ne (l : List Execution) {e : Execution} {key : Int} (ne : key ≠ e.key) :
    own key (l ++ [e]) = own key l := by
  simp [own, Ne.symm ne]

end Execution

open Execution

/-! ### Executions one after the other -/

/-- Executions that lead from one address to another, each to the address of the next. -/
def Leads : Int → List Execution → Int → Prop
  | a, [], b => a = b
  | a, e :: l, b => e.address = a ∧ Leads e.next l b

namespace Leads

variable {a b : Int} {l : List Execution} {e : Execution}

theorem concat (h : Leads a l b) (at_end : e.address = b) : Leads a (l ++ [e]) e.next := by
  induction l generalizing a with
  | nil => exact ⟨at_end.trans (show a = b from h).symm, rfl⟩
  | cons e' l ih => exact ⟨h.1, ih h.2⟩

theorem first (h : Leads a l b) : ∀ e ∈ l.head?, e.address = a := by
  cases l with
  | nil => exact nofun
  | cons e l =>
    intro e' he'
    cases he'
    exact h.1

theorem isChain (h : Leads a l b) : l.IsChain fun e e' => e'.address = e.next := by
  induction l generalizing a with
  | nil => exact .nil
  | cons e l ih => exact List.isChain_cons.2 ⟨h.2.first, ih h.2⟩

/-- Every execution goes one address further, except for those that block. -/
theorem length_eq (h : Leads a l b) : (l.length : Int) = b - a + l.countP Execution.blocked := by
  induction l generalizing a with
  | nil =>
    have same : a = b := h
    simp [same]
  | cons e l ih =>
    have rest := ih h.2
    have address := h.1
    rw [List.length_cons, List.countP_cons]
    by_cases blocked : e.blocked
    · rw [next, if_pos blocked] at rest
      rw [if_pos blocked]
      omega
    · rw [next, if_neg blocked] at rest
      rw [if_neg blocked]
      omega

/-- The executions that did not block were at all the addresses in between, one after the other. -/
theorem completed (h : Leads a l b) : (l.filter fun e => !e.blocked).map Execution.address
    = (List.range (b - a).toNat).map fun k : Nat => a + k := by
  induction l generalizing a with
  | nil =>
    have same : a = b := h
    simp [same]
  | cons e l ih =>
    have rest := ih h.2
    have address := h.1
    have forward := h.2.length_eq
    have few := List.countP_le_length (p := Execution.blocked) (l := l)
    by_cases blocked : e.blocked
    · rw [next, if_pos blocked, address] at rest
      rw [List.filter_cons_of_neg (by simp [blocked]), rest]
    · rw [next, if_neg blocked, address] at rest forward
      rw [List.filter_cons_of_pos (by simp [blocked]), List.map_cons, rest, address,
        show (b - a).toNat = (b - (a + 1)).toNat + 1 by omega, List.range_succ_eq_map, List.map_cons,
        List.map_map, Int.natCast_zero, Int.add_zero]
      refine congrArg (a :: ·) (List.map_congr_left fun k _ => ?_)
      show a + 1 + (k : Int) = a + ((k + 1 : Nat) : Int)
      omega

end Leads

/-! ### Who is woken -/

namespace Scheduler

variable {s s' : Scheduler} {key : Int} {r : Resource}

theorem not_mem_ready_of_blocked (h : s.Orderly) (hk : key ∈ Resource.all.flatMap s.blocked) :
    key ∉ s.queue .ready := by
  obtain ⟨r, -, waits⟩ := List.mem_flatMap.1 hk
  have blocked := (h.mem_queue_iff key (.blocked r)).1 waits
  intro ready
  have stands := (h.mem_queue_iff key .ready).1 ready
  rw [blocked] at stands
  cases stands

theorem woken_eq_nil (h : s.Orderly) (same : s'.queue .ready = s.queue .ready) :
    s.woken s' = [] := by
  refine List.filter_eq_nil_iff.2 fun key hk ready => ?_
  have ready' : key ∈ s'.queue .ready := of_decide_eq_true ready
  exact not_mem_ready_of_blocked h hk (same ▸ ready')

theorem count_blocked (h : s.Orderly) (waits : key ∈ s.queue (.blocked r)) :
    (Resource.all.flatMap s.blocked).count key = 1 := by
  have counts : ∀ other, (s.blocked other).count key
      = if (some (Station.blocked r)) = some (.blocked other) then 1 else 0 := by
    intro other
    rw [← (h.mem_queue_iff key _).1 waits]
    exact h.count key (.blocked other)
  rw [List.count_flatMap]
  simp only [Resource.all, List.map_cons, List.map_nil, List.sum_cons, List.sum_nil,
    Function.comp_apply, counts]
  cases r <;> rfl

theorem woken_eq_singleton (h : s.Orderly) (waits : key ∈ s.queue (.blocked r))
    (tail : s'.queue .ready = s.queue .ready ++ [key]) : s.woken s' = [key] := by
  have only : ∀ k ∈ Resource.all.flatMap s.blocked,
      decide (k ∈ s'.ready) = decide (k = key) := by
    intro k hk
    have ready := not_mem_ready_of_blocked h hk
    have appended : s'.ready = s.ready ++ [key] := tail
    refine decide_eq_decide.2 ?_
    rw [appended, List.mem_append, List.mem_singleton]
    exact or_iff_right ready
  rw [woken, List.filter_congr only, List.filter_eq, count_blocked h waits]
  rfl

end Scheduler

namespace Effect

variable {memory memory' : Memory} {s s' : Scheduler} {key : Int} {p : ControlBlock}
  {i : Instruction}

/-- An instruction wakes nobody and leaves the blocked queues as they are, or it is a signal that
wakes the process at the front of one of them. -/
theorem woken_cases (effect : Effect memory s key p i memory' s') (h : s.Orderly) :
    (s.woken s' = [] ∧ ∀ r, s'.queue (.blocked r) = s.queue (.blocked r)) ∨
      ∃ r woken rest, i = .semSignal r ∧ s.woken s' = [woken] ∧
        s.queue (.blocked r) = woken :: rest ∧ s'.queue (.blocked r) = rest ∧
          ∀ other, other ≠ r → s'.queue (.blocked other) = s.queue (.blocked other) := by
  cases effect with
  | acquire | release =>
    exact .inl ⟨s.woken_eq_nil h (s.queue_withPermits _ _ _), fun _ => s.queue_withPermits _ _ _⟩
  | bind => exact .inl ⟨s.woken_eq_nil h (s.queue_amend _ _ _), fun _ => s.queue_amend _ _ _⟩
  | store | nothing => exact .inl ⟨s.woken_eq_nil h rfl, fun _ => rfl⟩
  | @wake r woken rest _ front moved =>
    refine .inr ⟨r, woken, rest, rfl, ?_, front, ?_, fun other ne => ?_⟩
    · refine s.woken_eq_singleton (r := r) h (front ▸ List.mem_cons_self) ?_
      rw [moved.queue, if_pos rfl, Scheduler.queue_withPermits]
    · rw [moved.queue, if_neg nofun, if_pos rfl, Scheduler.queue_withPermits, front,
        List.erase_cons_head]
    · rw [moved.queue, if_neg nofun, if_neg (by simpa using ne), Scheduler.queue_withPermits]

end Effect

/-- What a completed instruction does to the blocked queues. -/
theorem Completion.woken_cases {ps : List Program} {m m' : Machine} {key : Int} {p : ControlBlock}
    {i : Instruction} (c : Completion key p i m m') (h : Sound ps m) :
    (m.scheduler.woken m'.scheduler = [] ∧
      ∀ r, m'.scheduler.queue (.blocked r) = m.scheduler.queue (.blocked r)) ∨
      ∃ r woken rest, i = .semSignal r ∧ m.scheduler.woken m'.scheduler = [woken] ∧
        m.scheduler.queue (.blocked r) = woken :: rest ∧ m'.scheduler.queue (.blocked r) = rest ∧
          ∀ other, other ≠ r →
            m'.scheduler.queue (.blocked other) = m.scheduler.queue (.blocked other) := by
  obtain ⟨memory, s, effect, -, queue, -⟩ := c.effect
  have ready : m'.scheduler.ready = s.ready := queue .ready
  have woken : m.scheduler.woken m'.scheduler = m.scheduler.woken s := by
    rw [Scheduler.woken, ready, ← Scheduler.woken]
  simp only [woken, queue]
  exact effect.woken_cases h.orderly

/-! ### The ledger -/

/-- An execution is of a line of its process. It blocks only if it is a wait, and wakes somebody only
if it is a signal. -/
structure Fitting (ps : List Program) (e : Execution) : Prop where
  line : ∃ P, ∃ k : Nat, Program.under ps e.key = some P ∧
    e.address = Program.start ps e.key + k ∧ P.instructions[k]? = some e.instruction
  wait : e.blocked → ∃ r, e.instruction = .semWait r
  signal : e.woken ≠ [] → ∃ r, e.instruction = .semSignal r

theorem Fitting.append {ps : List Program} {e : Execution} (h : Fitting ps e) (Q : Program) :
    Fitting (ps ++ [Q]) e := by
  obtain ⟨P, k, hP, address, line⟩ := h.line
  refine ⟨⟨P, k, Program.under_append_of_some Q hP, ?_, line⟩, h.wait, h.signal⟩
  rw [address, Program.start_append Q hP]

/-- How far a process has come and what was counted of it. -/
def ControlBlock.progress (p : ControlBlock) : Int × Int × Int := (p.lowerBound, p.pc, p.executed)

/-- Where nobody has got further, a process is where it was. -/
theorem Scheduler.process?_of_progress {s s' : Scheduler} {k : Int} {p' : ControlBlock}
    (same : (s'.process? k).map ControlBlock.progress = (s.process? k).map ControlBlock.progress)
    (known' : s'.process? k = some p') : ∃ p, s.process? k = some p ∧
      p.lowerBound = p'.lowerBound ∧ p.pc = p'.pc ∧ p.executed = p'.executed := by
  rw [known'] at same
  obtain ⟨p, known, eq⟩ := Option.map_eq_some_iff.1 same.symm
  simp only [ControlBlock.progress, Prod.mk.injEq] at eq
  exact ⟨p, known, eq⟩

/-- Nobody gets further by a promotion. -/
theorem Promotion.progress {m m' : Machine} (h : Promotion m m') (k : Int) :
    (m'.scheduler.process? k).map ControlBlock.progress
      = (m.scheduler.process? k).map ControlBlock.progress :=
  Scheduler.map_process?_of_body? (fun _ => rfl) (h.body? k)

/-- Nor does anybody by taking the processor, -/
theorem Occupied.progress {key : Int} {m m' : Machine} (o : Occupied key m m') (k : Int) :
    (m'.scheduler.process? k).map ControlBlock.progress
      = (m.scheduler.process? k).map ControlBlock.progress := by
  cases o with
  | busy => rfl
  | dispatched dispatch same =>
    obtain @⟨rest, s, idle, front, known, moved⟩ := dispatch
    rw [Machine.scheduler_of_inside same]
    have started := s.map_process?_amend (g := ControlBlock.progress) key k
      (f := ControlBlock.started m.now) fun _ => rfl
    exact started.trans (Scheduler.map_process?_of_body? (fun _ => rfl) (moved.body?_eq k))

/-- nor by leaving it. -/
theorem Departure.progress {key start : Int} {m m' : Machine} (d : Departure key start m m') (k : Int) :
    (m'.scheduler.process? k).map ControlBlock.progress
      = (m.scheduler.process? k).map ControlBlock.progress := by
  cases d with
  | yield => rfl
  | preempt facing moved => exact Scheduler.map_process?_of_body? (fun _ => rfl) (moved.body?_eq k)
  | terminate current known runs at_end moved recorded =>
    exact (Scheduler.map_process?_of_body? (fun _ => rfl) (moved.body?_eq k)).trans
      (Scheduler.map_process?_amend _ key k fun _ => rfl)

/-- Nobody begins or ceases to wait by a promotion, -/
theorem Promotion.queue_blocked {m m' : Machine} (h : Promotion m m') (r : Resource) :
    m'.scheduler.queue (.blocked r) = m.scheduler.queue (.blocked r) :=
  h.unmoved _ nofun nofun

/-- by taking the processor, -/
theorem Occupied.queue_blocked {key : Int} {m m' : Machine} (o : Occupied key m m') (r : Resource) :
    m'.scheduler.queue (.blocked r) = m.scheduler.queue (.blocked r) := by
  cases o with
  | busy => rfl
  | dispatched dispatch same =>
    rw [Machine.scheduler_of_inside same]
    exact dispatch.queue _ nofun nofun

/-- or by leaving it. -/
theorem Departure.queue_blocked {key start : Int} {m m' : Machine} (d : Departure key start m m')
    (r : Resource) : m'.scheduler.queue (.blocked r) = m.scheduler.queue (.blocked r) := by
  cases d with
  | yield => rfl
  | preempt facing moved => exact moved.queue_of_ne nofun nofun
  | terminate current known runs at_end moved recorded =>
    have ended := m.scheduler.queue_amend key (ControlBlock.ended m.now) (.blocked r)
    exact Eq.trans (moved.queue_of_ne nofun nofun) ended

/-- What was executed agrees with how far the processes have come and with who is blocked. -/
structure Ledger (ps : List Program) (l : List Execution) (m : Machine) : Prop where
  own : ∀ key p, m.scheduler.process? key = some p →
    Leads p.lowerBound (own key l) p.pc ∧ p.executed = (own key l).length
  fitting : ∀ e ∈ l, Fitting ps e
  waits : ∀ r, l.countP (blocks r)
    = (l.map (wakes r)).sum + (m.scheduler.queue (.blocked r)).length

namespace Ledger

variable {ps : List Program} {l : List Execution} {m m' : Machine} {key : Int} {p : ControlBlock}
  {i : Instruction} {r : Resource}

/-- The ledger looks at nothing but the progress of the processes and the blocked queues. -/
theorem of_same (L : Ledger ps l m) (progress : ∀ k,
      (m'.scheduler.process? k).map ControlBlock.progress
        = (m.scheduler.process? k).map ControlBlock.progress)
    (blocked : ∀ r, m'.scheduler.queue (.blocked r) = m.scheduler.queue (.blocked r)) :
    Ledger ps l m' := by
  refine ⟨fun k p' known' => ?_, L.fitting, fun r => (blocked r).symm ▸ L.waits r⟩
  obtain ⟨p, known, lower, pc, executed⟩ := Scheduler.process?_of_progress (progress k) known'
  rw [← lower, ← pc, ← executed]
  exact L.own k p known

theorem of_inside (L : Ledger ps l m) (same : m'.inside = m.inside) : Ledger ps l m' := by
  have scheduler := Machine.scheduler_of_inside same
  exact L.of_same (fun _ => by rw [scheduler]) fun _ => by rw [scheduler]

/-- The line that a process faces. -/
theorem fitting_of_facing (h : Sound ps m) (facing : Facing m key p i) {blocked : Bool}
    {woken : List Int} (wait : blocked → ∃ r, i = .semWait r)
    (signal : woken ≠ [] → ∃ r, i = .semSignal r) : Fitting ps ⟨key, p.pc, i, blocked, woken⟩ := by
  obtain ⟨P, hP, placed, standing⟩ := h.next?_of_facing facing
  refine ⟨⟨P, p.offset, hP, ?_, standing⟩, wait, signal⟩
  rw [← placed.lower]
  exact placed.holds.lower_add_offset.symm

/-- An execution is entered for its process. -/
theorem own_concat {e : Execution} (L : Ledger ps l m) {p' : ControlBlock}
    (known : m.scheduler.process? e.key = some p) (at_pc : e.address = p.pc)
    (known' : m'.scheduler.process? e.key = some p') (lower : p'.lowerBound = p.lowerBound)
    (pc : p'.pc = e.next) (executed : p'.executed = p.executed + 1)
    (others : ∀ k, k ≠ e.key → m'.scheduler.body? k = m.scheduler.body? k) :
    ∀ k q, m'.scheduler.process? k = some q →
      Leads q.lowerBound (Execution.own k (l ++ [e])) q.pc ∧
        q.executed = (Execution.own k (l ++ [e])).length := by
  intro k q hq
  by_cases same : k = e.key
  · subst same
    cases known'.symm.trans hq
    obtain ⟨leads, counted⟩ := L.own e.key p known
    rw [own_concat_self, lower, pc, executed, counted, List.length_append, List.length_singleton]
    exact ⟨leads.concat at_pc, (Int.natCast_succ _).symm⟩
  · have progress := Scheduler.map_process?_of_body? (g := ControlBlock.progress) (fun _ => rfl)
      (others k same)
    obtain ⟨q₀, hq₀, lower₀, pc₀, executed₀⟩ := Scheduler.process?_of_progress progress hq
    rw [own_concat_of_ne l same, ← lower₀, ← pc₀, ← executed₀]
    exact L.own k q₀ hq₀

/-- An execution is entered for its resource. -/
theorem waits_concat (L : Ledger ps l m) {e : Execution}
    (balance : ∀ r, [e].countP (blocks r) + (m.scheduler.queue (.blocked r)).length
      = wakes r e + (m'.scheduler.queue (.blocked r)).length) (r : Resource) :
    (l ++ [e]).countP (blocks r)
      = ((l ++ [e]).map (wakes r)).sum + (m'.scheduler.queue (.blocked r)).length := by
  have before := L.waits r
  have entry := balance r
  rw [List.countP_append, List.map_append, List.sum_append, List.map_singleton, List.sum_singleton]
  omega

theorem fitting_concat (L : Ledger ps l m) {e : Execution} (fitting : Fitting ps e) :
    ∀ e' ∈ l ++ [e], Fitting ps e' := by
  intro e' he'
  rcases List.mem_append.1 he' with old | new
  · exact L.fitting e' old
  · exact List.mem_singleton.1 new ▸ fitting

theorem complete (L : Ledger ps l m) (h : Sound ps m) (c : Completion key p i m m') :
    Ledger ps (l ++ [⟨key, p.pc, i, false, m.scheduler.woken m'.scheduler⟩]) m' := by
  obtain ⟨n, known'⟩ := c.known h
  have cases := c.woken_cases h
  have signal : m.scheduler.woken m'.scheduler ≠ [] → ∃ r, i = .semSignal r := by
    intro somebody
    rcases cases with ⟨nobody, -⟩ | ⟨r, -, -, signal, -⟩
    · exact absurd nobody somebody
    · exact ⟨r, signal⟩
  refine ⟨L.own_concat c.facing.known rfl known' rfl rfl rfl fun k ne => c.body?_of_ne ne,
    L.fitting_concat (fitting_of_facing h c.facing nofun signal), L.waits_concat fun r => ?_⟩
  rw [List.countP_singleton, if_neg (by simp [blocks]), Nat.zero_add, wakes]
  dsimp only
  rcases cases with ⟨nobody, same⟩ | ⟨r', woken, rest, rfl, one, front, left, same⟩
  · rw [same, nobody, List.length_nil, ite_self, Nat.zero_add]
  · by_cases own : r = r'
    · rw [own, if_pos rfl, one, front, left, List.length_cons, List.length_singleton, Nat.add_comm]
    · rw [if_neg (by simpa using Ne.symm own), same r own, Nat.zero_add]

theorem block (L : Ledger ps l m) (h : Sound ps m) (b : Blocking key p r m m') :
    Ledger ps (l ++ [⟨key, p.pc, .semWait r, true, m.scheduler.woken m'.scheduler⟩]) m' := by
  have facing := b.facing
  have nobody : m.scheduler.woken m'.scheduler = [] :=
    Scheduler.woken_eq_nil h.orderly (b.queue .ready nofun nofun)
  refine ⟨L.own_concat facing.known rfl b.known rfl rfl rfl fun k ne => b.body?_of_ne ne,
    L.fitting_concat (fitting_of_facing h facing (fun _ => ⟨r, rfl⟩) fun somebody =>
      absurd nobody somebody), L.waits_concat fun r' => ?_⟩
  have unpaid : wakes r' ⟨key, p.pc, .semWait r, true, m.scheduler.woken m'.scheduler⟩ = 0 :=
    if_neg nofun
  rw [List.countP_singleton, unpaid, Nat.zero_add]
  by_cases own : r' = r
  · rw [own, if_pos (by simp [blocks]), b.queue_blocked, List.length_append, List.length_singleton,
      Nat.add_comm]
  · have other : Station.blocked r' ≠ .blocked r := fun same => own (Station.blocked.inj same)
    rw [if_neg (by simp [blocks, Ne.symm own]), Nat.zero_add,
      b.queue (.blocked r') nofun other]

/-- All that a turn executes is entered. -/
theorem turn (L : Ledger ps l m) (h : Sound ps m) (rests : m.Rests) (runs : m.Runs key) (n : Nat) :
    Ledger ps (l ++ m.turnExecutions key n) (after (Machine.runInstructions key n) m) :=
  h.turn_invariant (fun _ _ _ L same => L.of_inside same) (fun h L c => L.complete h c)
    (fun h L b => L.block h b) rests runs L n

theorem promote (L : Ledger ps l m) (promotion : Promotion m m') : Ledger ps l m' :=
  L.of_same promotion.progress promotion.queue_blocked

theorem occupy (L : Ledger ps l m) (occupied : Occupied key m m') : Ledger ps l m' :=
  L.of_same occupied.progress occupied.queue_blocked

theorem depart (L : Ledger ps l m) {start : Int} (departure : Departure key start m m') :
    Ledger ps l m' :=
  L.of_same departure.progress departure.queue_blocked

/-- All that a step executes is entered, also if it ends in a fault, unless the pauses are refused. -/
theorem step (L : Ledger ps l m) (h : Sound ps m) (settled : Settled m) (rests : m.Rests) :
    Ledger ps (l ++ m.executions) (after Machine.step m) := by
  have executes := h.executes settled
  generalize m.executions = entries, after Machine.step m = m' at executes ⊢
  cases executes with
  | idle promotion =>
    rw [List.append_nil]
    exact (L.promote promotion).of_same (fun _ => rfl) fun _ => rfl
  | @turn key m₁ m₂ m₃ m₄ _ promotion occupied sound runs ran _ _ departure same =>
    have rests₂ := occupied.rests.2 (promotion.rests.2 rests)
    have entered := ((L.promote promotion).occupy occupied).turn sound rests₂ runs m₂.quantum.toNat
    rw [after_of_ok ran] at entered
    exact (entered.depart departure).of_inside same
  | @fault key _ m₁ m₂ _ promotion occupied sound runs broke =>
    have rests₂ := occupied.rests.2 (promotion.rests.2 rests)
    have entered := ((L.promote promotion).occupy occupied).turn sound rests₂ runs m₂.quantum.toNat
    rw [after_of_error broke] at entered
    exact entered

theorem load (L : Ledger ps l m) (h : Sound ps m) {P : Program} (load : Load P m m') :
    Ledger (ps ++ [P]) l m' := by
  obtain ⟨released, loaded, arrival⟩ := load
  refine ⟨fun k q hq => ?_, fun e he => (L.fitting e he).append P, fun r => ?_⟩
  · rw [arrival.process?] at hq
    split at hq
    · rename_i new
      cases hq
      -- nothing was executed of a program that is new
      have nothing : Execution.own k l = [] := by
        refine List.filter_eq_nil_iff.2 fun e he same => ?_
        obtain ⟨Q, -, hQ, -⟩ := (L.fitting e he).line
        obtain ⟨p, known⟩ := h.layout.process?_of_under hQ
        rw [of_decide_eq_true same, new, Scheduler.process?_nextKey] at known
        cases known
      rw [nothing]
      exact ⟨rfl, rfl⟩
    · exact L.own k q hq
  · rw [show Scheduler.queue _ _ = _ from arrival.queue (.blocked r), if_neg nofun]
    exact L.waits r

end Ledger

/-- All that was executed agrees with the machine that it led to, unless the pauses are refused. -/
theorem History.ledger {ps : List Program} {l : List Execution} {m : Machine}
    (h : History ps l m) (rests : m.Rests) : Ledger ps l m := by
  induction h with
  | create made =>
    obtain ⟨-, -, empty, -⟩ := Sound.create made
    refine ⟨fun k p known => ?_, nofun, fun r => ?_⟩
    · rw [empty, Scheduler.process?_empty] at known
      cases known
    · rw [empty, Scheduler.queue_empty]
      rfl
  | @load ps l lines release time m m' before given admits ih =>
    obtain ⟨m₁, load, same⟩ := Machine.load_of_admits given admits
    have rests' := load.rests.1 ((Machine.rests_of_inside same).1 rests)
    exact ((ih rests').load (before.reachable.sound rests').1 load).of_inside same
  | step before ih =>
    have rests' := before.reachable.rests_step.1 rests
    obtain ⟨sound, settled⟩ := before.reachable.sound rests'
    exact (ih rests').step sound settled rests'
  | outside _ _ same ih => exact (ih ((Machine.rests_of_inside same).1 rests)).of_inside same

/-- What a process of a program has executed so far, in order. -/
structure InOrder (P : Program) (p : ControlBlock) (l : List Execution) : Prop where
  counted : p.executed = l.length
  first : ∀ e ∈ l.head?, e.address = p.lowerBound
  /-- The same address follows an instruction that blocked the process, and else the next one. -/
  next : l.IsChain fun e e' => e'.address = if e.blocked then e.address else e.address + 1
  line : ∀ e ∈ l, ∃ k : Nat, e.address = p.lowerBound + k ∧ P.instructions[k]? = some e.instruction
  wait : ∀ e ∈ l, e.blocked → ∃ r, e.instruction = .semWait r
  total : p.executed = p.pc - p.lowerBound + l.countP Execution.blocked
  /-- The lines behind the process were completed once each. -/
  completed : (l.filter fun e => !e.blocked).map Execution.address
    = (List.range (p.pc - p.lowerBound).toNat).map fun k : Nat => p.lowerBound + k
  finished : p.state = .terminated → (l.filter fun e => !e.blocked).map Execution.address
    = (List.range P.lines.length).map fun k : Nat => p.lowerBound + k

/-- Wherever requests lead, faults within a turn included, every process has executed the lines of its
program in order, unless the pauses are refused: it starts with the first, a wait that blocked it is
executed again, and every other line is followed by the next. So it has completed exactly the lines
behind it, each once, which are all of them if it is terminated. The waits that blocked a process are
as many as the processes that were woken and those that are still blocked. -/
theorem Reachable.executed_in_order {ps : List Program} {m : Machine} (h : Reachable ps m)
    (rests : m.Rests) : (∃ l, History ps l m) ∧ ∀ l, History ps l m →
      (∀ key P p, Program.under ps key = some P → m.scheduler.process? key = some p →
        InOrder P p (own key l)) ∧
      (∀ e ∈ l, e.woken ≠ [] → ∃ r, e.instruction = .semSignal r) ∧
      ∀ r, l.countP (blocks r) = (l.map (wakes r)).sum + (m.scheduler.blocked r).length := by
  refine ⟨h.exists_history, fun l history => ?_⟩
  have L := history.ledger rests
  refine ⟨fun key P p hP known => ?_, fun e he => (L.fitting e he).signal, L.waits⟩
  obtain ⟨leads, counted⟩ := L.own key p known
  have placed := h.layout.placed key P p hP known
  have length := leads.length_eq
  refine ⟨counted, leads.first, leads.isChain, fun e he => ?_, fun e he => ?_, by omega,
    leads.completed, fun terminated => ?_⟩
  · obtain ⟨mem, same⟩ := List.mem_filter.1 he
    obtain ⟨Q, k, hQ, address, line⟩ := (L.fitting e mem).line
    rw [of_decide_eq_true same] at hQ address
    cases hP.symm.trans hQ
    exact ⟨k, by rw [address, placed.lower], line⟩
  · exact (L.fitting e (List.mem_filter.1 he).1).wait
  · have at_end := (h.at_end_iff hP known).2 (.inl terminated)
    rw [leads.completed, at_end]
    congr 2
    omega

/-- Two processes contend for a resource, one turn per instruction, and the input ends while the
first holds it and the second is blocked. With more input the first goes on where it was, and the
second is woken and waits once more. -/
theorem Reachable.executed_in_order_contending : ∃ m l,
    History [⟨["semWait file", "assign x input", "semSignal file"], 0⟩,
      ⟨["semWait file", "semSignal file"], 0⟩] l m ∧ m.Rests ∧
    l.map (fun e => (e.key, e.address, e.blocked, e.woken))
      = [(1, 0, false, []), (2, 6, true, []), (1, 1, false, []), (1, 2, false, [2]),
         (2, 6, false, []), (2, 7, false, [])] ∧
    ∃ p, m.scheduler.process? 2 = some p ∧ p.state = .terminated ∧
      InOrder ⟨["semWait file", "semSignal file"], 0⟩ p (own 2 l) := by
  have made := History.fresh 1 20 (by decide) (by decide)
  have first := made.after_createProcess ["semWait file", "assign x input", "semSignal file"] 0
    (by decide) (by decide)
  have second := first.after_createProcess ["semWait file", "semSignal file"] 0
    (by decide) (by decide)
  have last := (second.step.step.step.fed {} ["7"]).step.step.step.step
  have in_order := (last.reachable.executed_in_order (by decide +kernel)).2 _ last
  refine ⟨_, _, last, by decide +kernel, by decide +kernel, _, (Option.some_get ?_).symm, ?_,
    in_order.1 2 _ _ rfl (Option.some_get _).symm⟩
  · decide +kernel
  · decide +kernel

/-- If the pause after every instruction is refused, an instruction is executed and not passed: it is
counted, and will be executed again. -/
theorem Reachable.executed_in_order_restless : ∃ m p, Reachable [⟨["print x"], 0⟩] m ∧
    m.scheduler.process? 1 = some p ∧ p.executed = 1 ∧ p.pc = p.lowerBound ∧
    ¬∃ l, InOrder ⟨["print x"], 0⟩ p l := by
  have made := Reachable.restless 1 10 (by decide) (by decide)
  have loaded := made.after_createProcess ["print x"] 0 (by decide) (by decide)
  refine ⟨_, _, loaded.step, (Option.some_get (by decide +kernel)).symm, by decide +kernel,
    by decide +kernel, ?_⟩
  rintro ⟨l, order⟩
  -- what was executed without being passed would have to be a wait
  have counted : 0 < l.countP Execution.blocked := by
    have total := order.total
    rw [show ControlBlock.executed _ = 1 by decide +kernel,
      show ControlBlock.pc _ - ControlBlock.lowerBound _ = 0 by decide +kernel] at total
    omega
  obtain ⟨e, he, blocked⟩ := List.countP_pos_iff.1 counted
  obtain ⟨r, wait⟩ := order.wait e he blocked
  obtain ⟨k, -, line⟩ := order.line e he
  have mem := List.mem_of_getElem? line
  rw [wait] at mem
  revert mem
  cases r <;> decide +kernel

end RoundRobin
