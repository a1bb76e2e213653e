import RoundRobin.Proofs.Likeness

/-!
# Fixtures

The programs write files and nothing else, so the directories and all else that cannot be written stay
where they are, whatever the machine does (`Machine.fixed_run`). A path at which a file can be written leads
through directories to a place where no fixture stands, so it can be written as long as the fixtures stay
(`Storage.target_of_fixtures`).
-/

namespace RoundRobin

open Operation

namespace Storage

variable {s s' : Storage} {path : String} {place found : Place} {steps : List String}

/-- What stands at a place, unless it is a file that can be written. -/
def fixtures (s : Storage) (place : Place) : Option Entry :=
  match s.entryAt place with
  | none | some (.file _) => none
  | some entry => some entry

theorem fixtures_eq_directory_iff :
    s.fixtures place = some .directory ↔ s.entryAt place = some .directory := by
  unfold fixtures
  cases s.entryAt place with
  | none => exact ⟨nofun, nofun⟩
  | some entry => cases entry <;> simp

/-- A way that leads through directories is the same as long as these stay. -/
theorem walk_of_fixtures (same : s'.fixtures = s.fixtures)
    (reached : s.walk path place steps = .ok found) : s'.walk path place steps = .ok found := by
  induction steps generalizing place with
  | nil => exact reached
  | cons step rest ih =>
    unfold walk at reached ⊢
    by_cases stands : s.entryAt place = some .directory
    · have stays : s'.entryAt place = some .directory := by
        rw [← fixtures_eq_directory_iff, same, fixtures_eq_directory_iff, stands]
      rw [stands] at reached
      rw [stays]
      dsimp only at reached ⊢
      split_ifs at reached ⊢
      · exact ih reached
      · exact ih reached
      · exact ih reached
    · split at reached
      · cases reached
      · cases reached
      · cases reached
      · cases reached
      · exact absurd ‹_› stands

theorem locate_of_fixtures (same : s'.fixtures = s.fixtures)
    (reached : s.locate path steps = .ok found) : s'.locate path steps = .ok found := by
  unfold locate at reached ⊢
  split_ifs at reached ⊢
  exact walk_of_fixtures same reached

/-- What can be written leads to a place where no fixture stands. -/
theorem target_eq_ok_iff : s.target path = .ok place ↔ (Place.steps path).getLast? ≠ some "" ∧
    s.locate path (Place.steps path) = .ok place ∧ s.fixtures place = none := by
  unfold target
  dsimp only
  by_cases closed : (Place.steps path).getLast? = some ""
  · rw [if_pos closed]
    refine ⟨fun found => ?_, fun found => absurd closed found.1⟩
    cases way : s.locate path (Place.wayTo (Place.steps path)) with
    | error fault =>
      rw [way] at found
      cases found
    | ok place' =>
      rw [way] at found
      cases found
  · rw [if_neg closed]
    cases way : s.locate path (Place.steps path) with
    | error fault => exact ⟨nofun, fun found => nomatch found.2.1⟩
    | ok place' =>
      unfold fixtures
      simp only [bind, Except.bind, pure, Except.pure]
      refine ⟨fun found => ?_, fun ⟨_, same, free⟩ => ?_⟩
      · split at found
        · cases found
        · cases found
        · cases found
        · rename_i stands
          cases found
          exact ⟨closed, rfl, by rw [stands]⟩
        · rename_i stands
          cases found
          exact ⟨closed, rfl, by rw [stands]⟩
      · cases same
        cases stands : s.entryAt place with
        | none => rfl
        | some entry =>
          rw [stands] at free
          cases entry with
          | file content => rfl
          | _ => cases free

theorem target_of_fixtures (same : s'.fixtures = s.fixtures)
    (found : s.target path = .ok place) : s'.target path = .ok place := by
  obtain ⟨closed, reached, free⟩ := target_eq_ok_iff.1 found
  refine target_eq_ok_iff.2 ⟨closed, locate_of_fixtures same reached, ?_⟩
  rwa [same]

theorem write_of_target (found : s.target path = .ok place) (content : Text.Bytes) :
    s.write path content = .ok (s.put place (.file content)) := by
  unfold write
  rw [found]
  rfl

/-- The file at the place to which a path can be written is what is read from the path. -/
theorem read_of_target {content : Text.Bytes} (found : s.target path = .ok place)
    (stands : s.entryAt place = some (.file content)) : s.read path = .ok content := by
  obtain ⟨-, reached, -⟩ := target_eq_ok_iff.1 found
  unfold read
  rw [reached]
  simp only [bind, Except.bind]
  rw [stands]
  rfl

/-- Writing to a path makes or replaces the file at the place of the path, and nothing else. -/
theorem entryAt_write {content : Text.Bytes} (written : s.write path content = .ok s') :
    ∃ place, s.target path = .ok place ∧ ∀ other,
      s'.entryAt other = if other = place then some (.file content) else s.entryAt other := by
  unfold write at written
  cases target : s.target path with
  | error fault =>
    rw [target] at written
    cases written
  | ok place =>
    rw [target] at written
    cases written
    obtain ⟨-, -, free⟩ := target_eq_ok_iff.1 target
    have below : place.isAbove = false := by
      by_contra above
      rw [Bool.not_eq_false] at above
      rw [fixtures_eq_directory_iff.2 (if_pos above)] at free
      cases free
    exact ⟨place, rfl, s.entryAt_put below _⟩

/-- Writing a file makes no fixture and removes none. -/
theorem fixtures_write {content : Text.Bytes} (written : s.write path content = .ok s') :
    s'.fixtures = s.fixtures := by
  obtain ⟨place, target, entries⟩ := entryAt_write written
  obtain ⟨-, -, free⟩ := target_eq_ok_iff.1 target
  funext other
  by_cases here : other = place
  · rw [here, free, fixtures, entries, if_pos rfl]
  · rw [fixtures, entries, if_neg here, fixtures]

end Storage

/-! ### What the machine leaves as it is -/

section

variable {γ : Type} (view : Storage → γ) (shown : γ)

/-- One machine and the same again, with files that show something given in a view. -/
def Filed (m m' : Machine) : Prop := m = m' ∧ view m.storage = shown

/-- Most of what the machine does leaves the files as they are. -/
theorem likeness_filed : Likeness (Filed view shown) where
  bare like := congrArg Machine.bare like.1
  memory := fun ⟨same, files⟩ _ => ⟨by rw [same], files⟩
  clock := fun ⟨same, files⟩ _ => ⟨by rw [same], files⟩
  current := fun ⟨same, files⟩ _ => ⟨by rw [same], files⟩
  nextAddress := fun ⟨same, files⟩ _ => ⟨by rw [same], files⟩
  inputs := fun ⟨same, files⟩ _ => ⟨by rw [same], files⟩
  scheduler := fun ⟨same, files⟩ _ schedulers => by
    subst same
    exact ⟨by rw [schedulers rfl rfl], files⟩
  metrics := fun ⟨same, files⟩ _ => ⟨by rw [same], files⟩
  told := fun ⟨same, files⟩ _ => ⟨by rw [same], files⟩
  shown := fun ⟨same, files⟩ _ => ⟨by rw [same], by split <;> exact files⟩
  counted key := respects_countInstruction key (fun ⟨same, files⟩ => ⟨by rw [same], files⟩)
    (fun ⟨same, _⟩ => ⟨by rw [same], by rw [same]⟩) fun ⟨same, files⟩ _ => ⟨by rw [same], files⟩

theorem Operation.Respects.keeps {α : Type} {op : Operation α}
    (h : ∀ shown, Respects (Filed view shown) op) : Keeps (fun m => view m.storage) op :=
  fun m => (h (view m.storage) ⟨rfl, rfl⟩).after.2

end

namespace Machine

/-- No file is written before and after the instructions of a turn. -/
theorem unwritten_promote : Keeps Machine.storage promote :=
  Respects.keeps id fun shown => (likeness_filed id shown).promote

theorem unwritten_occupy : Keeps Machine.storage occupy :=
  Respects.keeps id fun shown => (likeness_filed id shown).occupy

theorem unwritten_leave (key : Int) : Keeps Machine.storage (leave key) :=
  Respects.keeps id fun shown => (likeness_filed id shown).leave key

/-- A run leaves the fixtures where they are. -/
theorem fixed_run (limit : Option Int) : Keeps (fun m => m.storage.fixtures) (run limit) := by
  refine Respects.keeps _ fun shown => Likeness.Timing.run ?_ limit
  exact { likeness_filed Storage.fixtures shown with
    storage := fun ⟨same, files⟩ written => by
      subst same
      exact ⟨rfl, (Storage.fixtures_write written).trans files⟩
    quantum := fun ⟨same, _⟩ => by rw [same]
    processes := fun ⟨same, _⟩ => by rw [same]
    measured := fun ⟨same, _⟩ => by rw [same] }

end Machine

end RoundRobin
