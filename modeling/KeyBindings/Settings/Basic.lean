import KeyBindings.Input.Action
import KeyBindings.Tracker.Basic

/-!
# Settings

What a user may set: how long a release counts, how much is remembered, whether hosts should keep
handled events to themselves, and how keys are named. The two lengths are AT LEAST ONE in every
value of the type, so that a tracker under any settings keeps its newest transition and its newest
release; a builder that is given zero takes one.
-/

namespace KeyBindings

/-- Tracker limits and host options, and the file they were read from. -/
structure Settings where
  /-- How long a released input keeps counting, in milliseconds. -/
  releaseWindow : Nat
  /-- How many released inputs are remembered. -/
  maxReleases : Nat
  /-- How many transitions are remembered. -/
  maxInputs : Nat
  /-- Whether hosts should suppress what handled events would do otherwise. -/
  preventsDefault : Bool
  naming : KeyNaming
  /-- The path of the file the settings were read from. -/
  source : Option String
  maxReleases_pos : 0 < maxReleases
  maxInputs_pos : 0 < maxInputs
  deriving DecidableEq, Repr

namespace Settings

/-- The settings without any choice made. -/
def default : Settings :=
  { releaseWindow := 500
    maxReleases := 5
    maxInputs := 10
    preventsDefault := true
    naming := .physical
    source := none
    maxReleases_pos := by decide
    maxInputs_pos := by decide }

instance : Inhabited Settings := ⟨default⟩

/-! ## Builders -/

def withReleaseWindow (s : Settings) (window : Nat) : Settings :=
  { s with releaseWindow := window }

def withMaxReleases (s : Settings) (length : Nat) : Settings :=
  { s with
    maxReleases := max 1 length
    maxReleases_pos := pos_max_one length }

def withMaxInputs (s : Settings) (length : Nat) : Settings :=
  { s with
    maxInputs := max 1 length
    maxInputs_pos := pos_max_one length }

def withPreventsDefault (s : Settings) (prevents : Bool) : Settings :=
  { s with preventsDefault := prevents }

def withNaming (s : Settings) (naming : KeyNaming) : Settings := { s with naming := naming }

def withSource (s : Settings) (path : String) : Settings := { s with source := some path }

/-- The limits of a tracker under the settings. -/
def limits (s : Settings) : Limits :=
  ⟨s.releaseWindow, s.maxInputs, s.maxReleases, s.maxInputs_pos⟩

@[simp] theorem window_limits (s : Settings) : s.limits.window = s.releaseWindow := rfl

@[simp] theorem log_limits (s : Settings) : s.limits.log = s.maxInputs := rfl

@[simp] theorem releases_limits (s : Settings) : s.limits.releases = s.maxReleases := rfl

end Settings

end KeyBindings
