import KeyBindings.Pattern.Basic
import KeyBindings.Tracker.Basic

/-!
# Moments: what was down at each press

A moment belongs to a press in the log: `fresh` is the input that was pressed, `group` is what the
log says was down just after. The log is walked from its oldest entry with NOTHING down at first,
so an input that went down before the log begins shows only once it is pressed again.

* `length_ofLog` -- one moment for each press in the log;
* **`fresh_mem_group`** -- the fresh input is down at its moment.
-/

namespace KeyBindings

/-- What was down just after a press. -/
structure Moment where
  group : Chord
  fresh : Input
  deriving DecidableEq

namespace Moment

/-- The moments of a log, where `down` is what is down before its oldest entry. -/
def ofLog (down : Chord) : List Transition → List Moment
  | [] => []
  | entry :: entries =>
    if entry.pressed then
      ⟨down.insert entry.input, entry.input⟩ :: ofLog (down.insert entry.input) entries
    else ofLog (down.erase entry.input) entries

theorem length_ofLog (down : Chord) (entries : List Transition) :
    (ofLog down entries).length = entries.countP (·.pressed) := by
  induction entries generalizing down with
  | nil => rfl
  | cons entry entries ih =>
    rw [ofLog, List.countP_cons]
    split <;> simp_all

/-- **The fresh input is down at its moment.** -/
theorem fresh_mem_group {down : Chord} {entries : List Transition} {m : Moment}
    (h : m ∈ ofLog down entries) : m.fresh ∈ m.group.members := by
  induction entries generalizing down with
  | nil => simp [ofLog] at h
  | cons entry entries ih =>
    rw [ofLog] at h
    split at h
    · rcases List.mem_cons.mp h with rfl | h
      · simp
      · exact ih h
    · exact ih h

end Moment

namespace Tracker

/-- The moments of a tracker's log, oldest first. -/
def moments (t : Tracker) : List Moment := Moment.ofLog .empty t.log

/-- The groups of the moments as a pattern, or of the newest `window` moments alone. -/
def toPattern (t : Tracker) (window : Option Nat) : Pattern :=
  let whole := Pattern.ofChords (t.moments.map (·.group))
  match window with
  | none => whole
  | some n => whole.last n

/-- No moment is lost in the pattern: a group is never empty. -/
theorem chords_toPattern_none (t : Tracker) :
    (t.toPattern none).chords = t.moments.map (·.group) := by
  refine Pattern.chords_ofChords_of_forall fun c hc => ?_
  obtain ⟨m, hm, rfl⟩ := List.mem_map.mp hc
  exact List.ne_nil_of_mem (Moment.fresh_mem_group hm)

end Tracker

end KeyBindings
