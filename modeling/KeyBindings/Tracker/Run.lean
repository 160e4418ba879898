import KeyBindings.Tracker.Basic

/-!
# Runs of a tracker, and the history they leave

A run is a list of operations, carried out one after the other. Beside the tracker, which forgets,
stands the HISTORY of a run: every press and release since the last clear, none dropped.

* `Tracker.step`, `Tracker.run` -- one operation, and all of them;
* `History.ofOps` -- the complete list of transitions since the last clear;
* `History.isDown` -- whether an input's latest transition in a history is a press.
-/

namespace KeyBindings

/-- An operation on a tracker. -/
inductive TrackerOp where
  | press (input : Input) (now : Instant)
  | release (input : Input) (now : Instant)
  | prune (now : Instant)
  | clear
  deriving DecidableEq, Repr

namespace Tracker

def step (t : Tracker) : TrackerOp → Tracker
  | .press input now => t.press input now
  | .release input now => t.release input now
  | .prune now => t.prune now
  | .clear => t.clear

def run (t : Tracker) (ops : List TrackerOp) : Tracker := ops.foldl step t

@[simp] theorem run_nil (t : Tracker) : t.run [] = t := rfl

@[simp] theorem run_cons (t : Tracker) (op : TrackerOp) (ops : List TrackerOp) :
    t.run (op :: ops) = (t.step op).run ops := rfl

theorem run_append (t : Tracker) (as bs : List TrackerOp) :
    t.run (as ++ bs) = (t.run as).run bs := List.foldl_append

@[simp] theorem limits_step (t : Tracker) (op : TrackerOp) : (t.step op).limits = t.limits := by
  cases op <;> rfl

/-- A run changes no limit. -/
@[simp] theorem limits_run (t : Tracker) (ops : List TrackerOp) :
    (t.run ops).limits = t.limits := by
  induction ops generalizing t with
  | nil => rfl
  | cons op ops ih => rw [run_cons, ih, limits_step]

end Tracker

/-! ## The history -/

/-- Transitions, oldest first. -/
abbrev History : Type := List Transition

namespace History

/-- What an operation adds to the transitions so far. -/
def extend (past : History) : TrackerOp → History
  | .press input now => past ++ [⟨input, true, now⟩]
  | .release input now => past ++ [⟨input, false, now⟩]
  | .prune _ => past
  | .clear => []

/-- Every transition of a run since its last clear. -/
def ofOps (ops : List TrackerOp) : History := ops.foldl extend []

/-- Whether the latest transition of an input, if it has one, is a press. -/
def isDown (past : History) (input : Input) : Bool :=
  (past.reverse.find? (·.input = input)).any (·.pressed)

@[simp] theorem ofOps_nil : ofOps [] = [] := rfl

theorem ofOps_concat (ops : List TrackerOp) (op : TrackerOp) :
    ofOps (ops ++ [op]) = (ofOps ops).extend op := by
  rw [ofOps, List.foldl_append]
  rfl

@[simp] theorem isDown_nil (input : Input) : isDown [] input = false := rfl

/-- **The newest transition decides for its input, and for no other.** -/
theorem isDown_concat (past : History) (entry : Transition) (input : Input) :
    isDown (past ++ [entry]) input =
      if entry.input = input then entry.pressed else isDown past input := by
  rw [isDown, List.reverse_append, List.reverse_singleton, List.singleton_append,
    List.find?_cons]
  by_cases h : entry.input = input
  · simp [h]
  · simp [h, isDown]

end History

end KeyBindings
