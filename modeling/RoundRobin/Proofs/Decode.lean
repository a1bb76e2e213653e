import RoundRobin.Proofs.Slots

/-!
# The names in an instruction

A line that assigns to a name or reads a file into one gives a name that is not empty, since the
words of a line are not.
-/

namespace RoundRobin

namespace Text

theorem ne_nil_of_mem_words {cs w : List Char} (hw : w ∈ words cs) : w ≠ [] := by
  unfold words at hw
  by_cases e : (splitWords cs).1.isEmpty = true
  · simp only [if_pos e] at hw
    exact ((splitWords_spec cs).2 w hw).1
  · simp only [if_neg e] at hw
    rcases List.mem_cons.1 hw with rfl | hw
    · simpa using e
    · exact ((splitWords_spec cs).2 w hw).1

theorem ne_empty_of_mem_wordsOf {text w : String} (hw : w ∈ wordsOf text) : w ≠ "" := by
  obtain ⟨cs, hcs, rfl⟩ := List.mem_map.1 hw
  intro empty
  apply ne_nil_of_mem_words hcs
  simpa using congrArg String.toList empty

end Text

namespace Instruction

/-- The name to which an instruction may give a value. -/
def target? : Instruction → Option String
  | assign name _ => some name
  | readFile _ name => some name
  | _ => none

theorem mem_of_target?_ofWords {value name : String} {ws : List String}
    (h : (ofWords value ws).target? = some name) : name ∈ ws := by
  unfold ofWords at h
  repeat' split at h
  all_goals simp_all [target?]

/-- The names whose values an instruction prints or counts between. -/
def mentioned : Instruction → List String
  | print name => [name]
  | printFromTo first last => [first, last]
  | _ => []

theorem mem_of_mem_mentioned_ofWords {value name : String} {ws : List String}
    (h : name ∈ (ofWords value ws).mentioned) : name ∈ ws := by
  unfold ofWords at h
  repeat' split at h
  all_goals simp_all [mentioned]
  all_goals tauto

theorem ne_empty_of_mem_mentioned {line name : String} (h : name ∈ (decode line).mentioned) :
    name ≠ "" :=
  Text.ne_empty_of_mem_wordsOf (mem_of_mem_mentioned_ofWords h)

theorem ne_empty_of_target? {line name : String} (h : (decode line).target? = some name) :
    name ≠ "" :=
  Text.ne_empty_of_mem_wordsOf (mem_of_target?_ofWords h)

end Instruction

theorem Memory.decode_of_instructionSlot? {m : Memory} {a : Int} {i : Instruction}
    (h : (m.instructionSlot? a).map Prod.snd = some i) : ∃ line, Instruction.decode line = i := by
  obtain ⟨⟨s, j⟩, hs, rfl⟩ := Option.map_eq_some_iff.1 h
  obtain ⟨t, -, ht⟩ := Option.bind_eq_some_iff.1 hs
  obtain ⟨k, hk, same⟩ := Option.map_eq_some_iff.1 ht
  cases same
  unfold Slot.instruction? at hk
  split at hk
  · exact ⟨s.value, Option.some.inj hk⟩
  · cases hk

end RoundRobin
