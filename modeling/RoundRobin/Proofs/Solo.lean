import RoundRobin.Proofs.Decode
import RoundRobin.Proofs.Layout

/-!
# Programs on their own

What a program does if it has the system to itself (`Solo.run`): it binds variables one after the
other while there is room, and prints what its own variables hold, where a name stands for its
first variable of that name. Semaphores do not matter to it.

`Detached` says when programs may be looked at like this: they neither use files nor ask for input,
and no program prints a name that is reserved or that another program assigns.
-/

namespace RoundRobin

/-- What a program has done on its own: the variables that it has bound, in order, and what it has
printed. -/
structure Solo where
  bindings : List Slot := []
  outputs : List String := []
  deriving DecidableEq, Repr

namespace Solo

/-- The value of the first variable of a name. -/
def find (s : Solo) (name : String) : Option String :=
  (s.bindings.find? fun b => b.name == name).map Slot.value

/-- One more variable, if the name is not reserved and there is room. -/
def bind (s : Solo) (name value : String) : Solo :=
  if Slot.isReservedName name ∨ Memory.reserved ≤ s.bindings.length then s
  else { s with bindings := s.bindings ++ [⟨name, value⟩] }

/-- Some more lines that were printed. -/
def say (s : Solo) (texts : List String) : Solo := { s with outputs := s.outputs ++ texts }

/-- The integers from one to another. -/
def span (low high : Int) : List String :=
  (List.range (high + 1 - low).toNat).map fun (i : Nat) => Integer.text (low + i)

/-- One instruction of a program on its own. -/
def exec (s : Solo) : Instruction → Solo
  | .assign name (.literal value) => s.bind name value
  | .print name => s.say (s.find name).toList
  | .printFromTo first last =>
    match (s.find first).bind Integer.parse?, (s.find last).bind Integer.parse? with
    | some low, some high => s.say (span low high)
    | _, _ => s
  | _ => s

/-- What comes of some instructions, one after the other. -/
def run (l : List Instruction) : Solo := l.foldl exec {}

theorem run_concat (l : List Instruction) (i : Instruction) : run (l ++ [i]) = (run l).exec i :=
  List.foldl_concat exec {} i l

variable {s : Solo} {b : Slot} {i : Instruction} {l : List Instruction}

/-- Only an instruction that gives a value to a name binds a variable of that name. -/
theorem mem_bindings_exec (hb : b ∈ (s.exec i).bindings) :
    b ∈ s.bindings ∨ i.target? = some b.name := by
  unfold exec at hb
  split at hb
  · unfold bind at hb
    split at hb
    · exact .inl hb
    · rcases List.mem_append.1 hb with old | new
      · exact .inl old
      · rw [List.mem_singleton.1 new]
        exact .inr rfl
  · exact .inl hb
  · split at hb <;> exact .inl hb
  · exact .inl hb

theorem mem_bindings_run (hb : b ∈ (run l).bindings) : ∃ i ∈ l, i.target? = some b.name := by
  induction l using List.reverseRecOn with
  | nil => cases hb
  | append_singleton l i ih =>
    rw [run_concat] at hb
    rcases mem_bindings_exec hb with old | new
    · obtain ⟨j, hj, target⟩ := ih old
      exact ⟨j, List.mem_append_left _ hj, target⟩
    · exact ⟨i, List.mem_append_right l (List.mem_singleton_self i), new⟩

end Solo

namespace Instruction

/-- Whether an instruction uses nothing but the variables, the semaphores and the output. -/
def isLocal : Instruction → Bool
  | semWait _ | semSignal _ | assign _ (.literal _) | print _ | printFromTo _ _ | unknown _ => true
  | _ => false

end Instruction

namespace Program

/-- A program prints no name to which another gives a value. -/
def Ignores (P Q : Program) : Prop :=
  ∀ i ∈ P.instructions, ∀ name ∈ i.mentioned, ∀ j ∈ Q.instructions, j.target? ≠ some name

instance (P Q : Program) : Decidable (P.Ignores Q) :=
  inferInstanceAs (Decidable (∀ i ∈ P.instructions, ∀ name ∈ i.mentioned, ∀ j ∈ Q.instructions,
    j.target? ≠ some name))

end Program

/-- Programs that have nothing to do with each other: they use nothing but variables, semaphores and
output, print no reserved names, and print no names that others assign. -/
structure Detached (ps : List Program) : Prop where
  isLocal : ∀ P ∈ ps, ∀ i ∈ P.instructions, i.isLocal
  named : ∀ P ∈ ps, ∀ i ∈ P.instructions, ∀ name ∈ i.mentioned, Slot.isReservedName name = false
  apart : ps.Pairwise fun P Q => P.Ignores Q ∧ Q.Ignores P

namespace Detached

variable {ps : List Program} {P Q : Program} {key other : Int}

theorem of_append (h : Detached (ps ++ [P])) : Detached ps :=
  ⟨fun Q hQ => h.isLocal Q (List.mem_append_left _ hQ),
    fun Q hQ => h.named Q (List.mem_append_left _ hQ), (List.pairwise_append.1 h.apart).1⟩

theorem ignores (h : Detached ps) (hP : Program.under ps key = some P)
    (hQ : Program.under ps other = some Q) (ne : other ≠ key) : P.Ignores Q := by
  obtain ⟨positive, at_key⟩ := Program.under_eq_some_iff.1 hP
  obtain ⟨positive', at_other⟩ := Program.under_eq_some_iff.1 hQ
  obtain ⟨inside, rfl⟩ := List.getElem?_eq_some_iff.1 at_key
  obtain ⟨inside', rfl⟩ := List.getElem?_eq_some_iff.1 at_other
  have apart := List.pairwise_iff_getElem.1 h.apart
  by_cases before : key < other
  · exact (apart _ _ inside inside' (by omega)).1
  · exact (apart _ _ inside' inside (by omega)).2

end Detached

end RoundRobin
