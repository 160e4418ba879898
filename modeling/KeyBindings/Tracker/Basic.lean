import KeyBindings.Chord
import KeyBindings.Sequence

/-!
# The tracker: what is down, what happened, what was let go

A tracker remembers three things about live input:

* `held` -- the inputs that are down, in the order their holds began;
* `log` -- the newest presses and releases, oldest first, `limits.log` of them at most;
* `releases` -- the inputs released last, each once and oldest release first, `limits.releases` of
  them at most; an entry counts up to and INCLUDING its expiry.

Expiry is decided against the instant that is asked about; no entry ever goes stale by itself.
-/

namespace KeyBindings

/-! ## 1. Limits -/

/-- How much a tracker remembers. The newest transition is always remembered; the release history
    may be switched off. -/
structure Limits where
  /-- How long a released input keeps counting, in milliseconds. -/
  window : Nat
  /-- How many transitions the log keeps. -/
  log : Nat
  /-- How many released inputs are kept. -/
  releases : Nat
  log_pos : 0 < log
  deriving Repr

/-- Raising zero to one leaves no zero. -/
theorem pos_max_one (n : Nat) : 0 < max 1 n := by omega

/-- Limits from plain numbers; a log of no entries is raised to one. -/
def Limits.ofNumbers (window log releases : Nat) : Limits :=
  ⟨window, max 1 log, releases, pos_max_one log⟩

/-! ## 2. The tracker -/

/-- One press or release. -/
structure Transition where
  input : Input
  pressed : Bool
  time : Instant
  deriving DecidableEq, Repr

/-- An input that was released, and the last instant at which that counts. -/
structure Release where
  input : Input
  expiry : Instant
  deriving DecidableEq, Repr

/-- The state of live input. -/
structure Tracker where
  limits : Limits
  held : Chord
  log : List Transition
  releases : List Release

namespace Tracker

/-- A tracker that has seen nothing. -/
def new (limits : Limits) : Tracker := ⟨limits, .empty, [], []⟩

/-- Adds a transition to the log and drops the oldest ones, one by one, beyond the limit. -/
def record (t : Tracker) (entry : Transition) : Tracker :=
  { t with log := Sequence.dropOldest t.limits.log (t.log ++ [entry]) }

/-- A press: the input is held from now on. Pressing a held input leaves its place in the order of
    holds. -/
def press (t : Tracker) (input : Input) (now : Instant) : Tracker :=
  { t with held := t.held.insert input }.record ⟨input, true, now⟩

/-- Drops the releases that no longer count at an instant. -/
def prune (t : Tracker) (now : Instant) : Tracker :=
  { t with releases := t.releases.filter fun r => now ≤ r.expiry }

/-- Makes a release the newest one: an older release of the same input goes, and then the oldest
    releases, one by one, beyond the limit. -/
def remember (t : Tracker) (input : Input) (now : Instant) : Tracker :=
  { t with
    releases := Sequence.dropOldest t.limits.releases
      (t.releases.filter (·.input ≠ input) ++ [⟨input, now + t.limits.window⟩]) }

/-- A release: the input is held no more. A release of an input that is not held is logged and
    remembered all the same. -/
def release (t : Tracker) (input : Input) (now : Instant) : Tracker :=
  (({ t with held := t.held.erase input }.record ⟨input, false, now⟩).prune now).remember input now

/-- Forgets all live input; the limits stay. -/
def clear (t : Tracker) : Tracker := new t.limits

/-! ## 3. Asking -/

def isHeld (t : Tracker) (input : Input) : Bool := t.held.contains input

/-- Whether the newest transition is a press. -/
def lastWasPress (t : Tracker) : Bool := t.log.getLast?.any (·.pressed)

/-- The inputs whose release counts at an instant, oldest release first. -/
def recentReleases (t : Tracker) (now : Instant) : List Input :=
  (t.releases.filter fun r => now ≤ r.expiry).map (·.input)

/-- Whether a release of the input counts at an instant. -/
def releasedRecently (t : Tracker) (input : Input) (now : Instant) : Bool :=
  (t.releases.find? (·.input = input)).any fun r => now ≤ r.expiry

/-! ## 4. What each operation does to each part -/

@[simp] theorem limits_press (t : Tracker) (input : Input) (now : Instant) :
    (t.press input now).limits = t.limits := rfl

@[simp] theorem limits_release (t : Tracker) (input : Input) (now : Instant) :
    (t.release input now).limits = t.limits := rfl

@[simp] theorem limits_prune (t : Tracker) (now : Instant) : (t.prune now).limits = t.limits := rfl

@[simp] theorem limits_clear (t : Tracker) : t.clear.limits = t.limits := rfl

@[simp] theorem held_press (t : Tracker) (input : Input) (now : Instant) :
    (t.press input now).held = t.held.insert input := rfl

@[simp] theorem held_release (t : Tracker) (input : Input) (now : Instant) :
    (t.release input now).held = t.held.erase input := rfl

@[simp] theorem held_prune (t : Tracker) (now : Instant) : (t.prune now).held = t.held := rfl

@[simp] theorem held_clear (t : Tracker) : t.clear.held = .empty := rfl

/-- What is left of the log is its newest part. -/
theorem log_record (t : Tracker) (entry : Transition) :
    (t.record entry).log = Sequence.keepLast t.limits.log (t.log ++ [entry]) :=
  Sequence.dropOldest_eq_keepLast _ _

/-- What is left of the releases is their newest part. -/
theorem releases_remember (t : Tracker) (input : Input) (now : Instant) :
    (t.remember input now).releases = Sequence.keepLast t.limits.releases
      (t.releases.filter (·.input ≠ input) ++ [⟨input, now + t.limits.window⟩]) :=
  Sequence.dropOldest_eq_keepLast _ _

@[simp] theorem log_press (t : Tracker) (input : Input) (now : Instant) :
    (t.press input now).log =
      Sequence.keepLast t.limits.log (t.log ++ [⟨input, true, now⟩]) := log_record _ _

@[simp] theorem log_release (t : Tracker) (input : Input) (now : Instant) :
    (t.release input now).log =
      Sequence.keepLast t.limits.log (t.log ++ [⟨input, false, now⟩]) := log_record _ _

@[simp] theorem log_prune (t : Tracker) (now : Instant) : (t.prune now).log = t.log := rfl

@[simp] theorem log_clear (t : Tracker) : t.clear.log = [] := rfl

@[simp] theorem releases_press (t : Tracker) (input : Input) (now : Instant) :
    (t.press input now).releases = t.releases := rfl

theorem releases_prune (t : Tracker) (now : Instant) :
    (t.prune now).releases = t.releases.filter fun r => now ≤ r.expiry := rfl

theorem releases_release (t : Tracker) (input : Input) (now : Instant) :
    (t.release input now).releases = Sequence.keepLast t.limits.releases
      ((t.prune now).releases.filter (·.input ≠ input) ++ [⟨input, now + t.limits.window⟩]) :=
  releases_remember _ _ _

@[simp] theorem releases_clear (t : Tracker) : t.clear.releases = [] := rfl

/-- The release history stays within its limit. -/
theorem length_releases_remember_le (t : Tracker) (input : Input) (now : Instant) :
    (t.remember input now).releases.length ≤ t.limits.releases := by
  rw [releases_remember, Sequence.length_keepLast]
  omega

/-- **The newest transition is never lost.** -/
theorem getLast?_log_record (t : Tracker) (entry : Transition) :
    (t.record entry).log.getLast? = some entry := by
  have h := t.limits.log_pos
  have hl : (t.log ++ [entry]).length - t.limits.log ≤ t.log.length := by simp; omega
  rw [log_record, Sequence.keepLast, List.drop_append_of_le_length hl, List.getLast?_concat]

@[simp] theorem lastWasPress_press (t : Tracker) (input : Input) (now : Instant) :
    (t.press input now).lastWasPress = true := by
  rw [lastWasPress, press, getLast?_log_record]
  rfl

@[simp] theorem lastWasPress_release (t : Tracker) (input : Input) (now : Instant) :
    (t.release input now).lastWasPress = false := by
  have h := getLast?_log_record { t with held := t.held.erase input } ⟨input, false, now⟩
  rw [lastWasPress, release]
  show (List.getLast? (record _ _).log).any _ = false
  rw [h]
  rfl

end Tracker

end KeyBindings
