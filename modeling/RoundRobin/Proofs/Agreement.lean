import RoundRobin.Proofs.Reserve
import RoundRobin.Proofs.Solo
import RoundRobin.Proofs.Turn

/-!
# Agreement with programs on their own

A process agrees with a program on its own if its reserved slots hold the variables that the program
has bound, and no others, and it has printed what the program has (`Alone`). Only what shows in the
scene matters for this. If all processes agree with their programs (`Agrees`), a name that no other
program has bound is found where its own program has it (`Agrees.find_eq`), so that an instruction
does to the machine what it does to the program on its own (`Agrees.takes_execute`).
-/

namespace RoundRobin

open Operation

namespace Machine

/-- What the process under a key has printed, in order. -/
def outputsOf (m : Machine) (key : Int) : List String :=
  (m.outputs.filter fun o => o.1 == key).map Prod.snd

end Machine

/-- The process under a key has bound and printed what a program has on its own. -/
structure Alone (m : Machine) (key : Int) (s : Solo) : Prop where
  bound : ∀ p, m.scheduler.process? key = some p → p.bound = s.bindings.length
  slots : ∀ p, m.scheduler.process? key = some p → ∀ j : Nat, j < 3 →
    m.memory.slot? (p.firstReserved + j) = some (s.bindings[j]?.getD Slot.free)
  outputs : m.outputsOf key = s.outputs

/-- Every process agrees with its program, of which the state is given by the key. -/
def Agrees (m : Machine) (f : Int → Solo) : Prop := ∀ key, Alone m key (f key)

/-- Agreement is about the reserved slots and about what was printed. -/
theorem agrees_iff {m : Machine} {f : Int → Solo} : Agrees m f ↔
    Reserves m (fun key => (f key).bindings) ∧ ∀ key, m.outputsOf key = (f key).outputs :=
  ⟨fun h => ⟨⟨fun key => (h key).bound, fun key => (h key).slots⟩, fun key => (h key).outputs⟩,
    fun ⟨reserves, outputs⟩ key => ⟨reserves.bound key, reserves.slots key, outputs key⟩⟩

namespace Agrees

variable {ps : List Program} {m m' : Machine} {f g : Int → Solo} {key : Int} {p : ControlBlock}
  {name : String}

theorem bindings_update (f : Int → Solo) (key : Int) (s : Solo) :
    (fun k => (Function.update f key s k).bindings)
      = Function.update (fun k => (f k).bindings) key s.bindings :=
  Function.comp_update Solo.bindings f key s

theorem of_scene (h : Agrees m f) (same : m'.scene = m.scene) : Agrees m' f := by
  obtain ⟨reserves, outputs⟩ := agrees_iff.1 h
  have printed : m'.outputs = m.outputs := congrArg Scene.outputs same
  refine agrees_iff.2
    ⟨reserves.of_places (congrArg Scene.memory same) (congrArg Scene.places same), fun k => ?_⟩
  rw [Machine.outputsOf, printed]
  exact outputs k

/-- A process prints some lines. -/
theorem say (h : Agrees m f) {texts : List String} (memory : m'.memory = m.memory)
    (scheduler : m'.scheduler = m.scheduler)
    (outputs : m'.outputs = m.outputs ++ texts.map fun text => (key, text)) :
    Agrees m' (Function.update f key ((f key).say texts)) := by
  obtain ⟨reserves, before⟩ := agrees_iff.1 h
  have same : (fun k => (Function.update f key ((f key).say texts) k).bindings)
      = fun k => (f k).bindings := by
    rw [bindings_update]
    exact Function.update_eq_self key _
  refine agrees_iff.2 ⟨same ▸ reserves.of_places memory (by rw [scheduler]), fun k => ?_⟩
  rw [Machine.outputsOf, outputs, List.filter_append, List.map_append, ← Machine.outputsOf, before]
  by_cases own : k = key
  · subst own
    rw [Function.update_self, List.filter_eq_self.2 (by simp), List.map_map]
    exact congrArg (_ ++ ·) (List.map_id texts)
  · rw [Function.update_of_ne own, List.filter_eq_nil_iff.2 (by simp [Ne.symm own])]
    exact List.append_nil _

/-- A process binds one more variable. -/
theorem bind (h : Agrees m f) (layout : Layout ps m) (known : m.scheduler.process? key = some p)
    (room : (f key).bindings.length < 3) {s : Slot} {memory : Memory}
    (written : m.memory.write? p.nextSlot s = .ok memory) :
    Agrees { m with
      memory, scheduler := m.scheduler.amend key fun p => { p with bound := p.bound + 1 } }
      (Function.update f key { f key with bindings := (f key).bindings ++ [s] }) := by
  obtain ⟨reserves, outputs⟩ := agrees_iff.1 h
  refine agrees_iff.2 ⟨?_, fun k => (outputs k).trans ?_⟩
  · rw [bindings_update]
    exact reserves.bind layout known room written
  · by_cases own : k = key
    · subst own
      rw [Function.update_self]
    · rw [Function.update_of_ne own]

/-- A name that no other program has bound stands for the first variable of that name that its own
program has bound. -/
theorem find_eq (h : Agrees m f) (layout : Layout ps m)
    (known : m.scheduler.process? key = some p) (named : Slot.isReservedName name = false)
    (nonempty : name ≠ "") (own : ∀ k, k ≠ key → ∀ b ∈ (f k).bindings, b.name ≠ name) :
    m.memory.find name = (f key).find name := by
  obtain ⟨reserves, -⟩ := agrees_iff.1 h
  rw [Memory.find, Solo.find]
  cases found : (f key).bindings.find? fun b => b.name == name with
  | none =>
    have absent := List.find?_eq_none.1 found
    have nobody : ∀ k, ∀ b ∈ (f k).bindings, b.name ≠ name := by
      intro k b hb
      by_cases mine : k = key
      · subst mine
        simpa using absent b hb
      · exact own k mine b hb
    rw [reserves.addressOf_eq_none layout nonempty named nobody]
    rfl
  | some b =>
    obtain ⟨same, front, back, split, new⟩ := List.find?_eq_some_iff_append.1 found
    obtain rfl : b.name = name := beq_iff_eq.1 same
    obtain ⟨-, slot⟩ := reserves.slot?_of_getElem? (j := front.length) (s := b) layout known
      (by simp [split])
    rw [reserves.addressOf_eq_some layout known ⟨nonempty, named⟩ split
      (fun t ht => by simpa using new t ht) fun k earlier => own k (by omega), Option.bind_some, slot]

end Agrees

/-! ### What an instruction does -/

/-- An operation takes the programs from one state to another, or ends in a fault before it does
anything. -/
def Takes {α : Type} (f g : Int → Solo) (op : Operation α) (m : Machine) : Prop :=
  match op m with
  | .ok _ m' => Agrees m' g
  | .error _ m' => Agrees m' f

namespace Takes

variable {α β : Type} {f g : Int → Solo} {m : Machine}

theorem of_still (h : Agrees m f) {op : Operation α} (still : Still op) : Takes f f op m := by
  unfold Takes
  cases result : op m with
  | ok a m' => exact h.of_scene (still.of_ok result)
  | error fault m' => exact h.of_scene (still.of_error result)

/-- What comes after may be anything that neither fails nor changes the scene. -/
theorem andThen {op : Operation α} (h : Takes f g op m) (b : β) :
    Takes f g (do let _ ← op; return b) m := by
  unfold Takes at h ⊢
  rw [bind_apply]
  cases result : op m with
  | ok a m' =>
    rw [result] at h
    exact h
  | error fault m' =>
    rw [result] at h
    exact h

end Takes

namespace Agrees

variable {ps : List Program} {m : Machine} {f : Int → Solo} {key : Int} {p : ControlBlock}

theorem takes_print (h : Agrees m f) {name : String}
    (found : m.memory.find name = (f key).find name) :
    Takes f (Function.update f key ((f key).exec (.print name))) (Machine.print key name) m := by
  unfold Takes Machine.print
  rw [bind_apply, get_apply]
  dsimp only
  rw [found, Solo.exec]
  cases (f key).find name with
  | none =>
    have told : Agrees m (Function.update f key ((f key).say [])) :=
      h.say rfl rfl (List.append_nil _).symm
    exact Takes.of_still told (Machine.still_complain key _)
  | some value => exact h.say rfl rfl (Machine.outputs_record m _)

theorem takes_printFromTo (h : Agrees m f) {first last : String}
    (low : m.memory.find first = (f key).find first)
    (high : m.memory.find last = (f key).find last) :
    Takes f (Function.update f key ((f key).exec (.printFromTo first last)))
      (Machine.printFromTo key first last) m := by
  have idle : Agrees m (Function.update f key (f key)) := by rwa [Function.update_eq_self]
  unfold Takes Machine.printFromTo
  rw [bind_apply, get_apply]
  dsimp only
  rw [Machine.integerOf?, Machine.integerOf?, low, high, Solo.exec]
  cases ((f key).find first).bind Integer.parse? with
  | none => exact Takes.of_still idle (Machine.still_complain key _)
  | some a =>
    cases ((f key).find last).bind Integer.parse? with
    | none => exact Takes.of_still idle (Machine.still_complain key _)
    | some b =>
      refine h.say rfl rfl ((Machine.outputs_recordAll m _).trans (congrArg _ ?_))
      rw [Machine.rangeOutputs, List.filterMap_map, Solo.span, List.map_map]
      exact congrFun (List.filterMap_eq_map (f := fun (i : Nat) => (key, Integer.text (a + i)))) _

theorem takes_bindName (h : Agrees m f) (layout : Layout ps m)
    (known : m.scheduler.process? key = some p) (name value : String) :
    Takes f (Function.update f key ((f key).bind name value))
      (Machine.bindName key name value) m := by
  have idle : Agrees m (Function.update f key (f key)) := by rwa [Function.update_eq_self]
  have three : Memory.reserved = 3 := rfl
  have bound := (h key).bound p known
  unfold Takes Machine.bindName Solo.bind
  by_cases reserved : Slot.isReservedName name
  · rw [if_pos reserved, if_pos (.inl reserved)]
    exact Takes.of_still idle (Machine.still_complain key _)
  · rw [if_neg reserved, bind_apply, process_apply known]
    dsimp only
    by_cases full : (Memory.reserved : Int) ≤ p.bound
    · rw [if_pos full, if_pos (.inr (by omega))]
      exact Takes.of_still idle (Machine.still_complain key _)
    · rw [if_neg full, if_neg (not_or.2 ⟨reserved, by omega⟩)]
      obtain ⟨P, hP, placed⟩ := layout.lookup known
      have free := placed.holds.slot?_nextSlot (by omega)
      obtain ⟨memory, written⟩ := Memory.write?_eq_ok_of_slot? free ⟨name, value⟩
      rw [bind_apply]
      simp only [writeSlot, written, amend_apply]
      exact h.bind layout known (by omega) written

/-- An instruction does to the machine what it does to its program on its own, if the names that it
mentions stand for the same in both. -/
theorem takes_execute (h : Agrees m f) (layout : Layout ps m)
    (known : m.scheduler.process? key = some p) {i : Instruction} (isLocal : i.isLocal)
    (resolved : ∀ name ∈ i.mentioned, m.memory.find name = (f key).find name) :
    Takes f (Function.update f key ((f key).exec i)) (Machine.execute key i) m := by
  have idle : Function.update f key (f key) = f := Function.update_eq_self key f
  cases i with
  | semWait r =>
    rw [show (f key).exec (.semWait r) = f key from rfl, idle]
    exact .of_still h (Machine.still_semWait key r)
  | semSignal r =>
    rw [show (f key).exec (.semSignal r) = f key from rfl, idle]
    exact .andThen (.of_still h (Machine.still_semSignal r)) true
  | unknown words =>
    rw [show (f key).exec (.unknown words) = f key from rfl, idle]
    exact h
  | assign name source =>
    cases source with
    | literal value => exact .andThen (h.takes_bindName layout known name value) true
    | input | file => cases isLocal
  | print name => exact .andThen (h.takes_print (resolved name List.mem_cons_self)) true
  | printFromTo first last =>
    have low := resolved first List.mem_cons_self
    have high := resolved last (List.mem_cons_of_mem first List.mem_cons_self)
    exact .andThen (h.takes_printFromTo low high) true
  | writeFile | readFile => cases isLocal

/-- The tick of an instruction and the way to the next one are nothing to the programs on their
own. -/
theorem takes_perform {g : Int → Solo} {i : Instruction}
    (takes : Takes f g (Machine.execute key i) m)
    (rests : ∀ running m₁, Machine.execute key i m = .ok running m₁ → m₁.sleep.Accepts m₁.delay) :
    Takes f g (Machine.perform key i) m := by
  unfold Takes at takes ⊢
  unfold Machine.perform
  rw [bind_apply]
  cases result : Machine.execute key i m with
  | error fault m₁ =>
    rw [result] at takes
    exact takes
  | ok running m₁ =>
    rw [result] at takes
    dsimp only at takes ⊢
    obtain ⟨m₂, counted, -⟩ := Machine.countInstruction_apply (rests running m₁ result) key
    have agrees := takes.of_scene ((Machine.still_countInstruction key).of_ok counted)
    rw [bind_apply, counted]
    cases running with
    | false => exact agrees
    | true =>
      obtain ⟨reserves, outputs⟩ := agrees_iff.1 agrees
      exact agrees_iff.2 ⟨reserves.change ControlBlock.advance_frame, outputs⟩

end Agrees

end RoundRobin
