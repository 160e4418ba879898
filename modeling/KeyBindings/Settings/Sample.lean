/-!
# The settings file for a new installation

The file sets every key to its default and says above each what it is for.
-/

namespace KeyBindings.Settings

/-- The lines of the file. -/
def sampleLines : List String :=
  ["# Inputman Settings",
   "# Place this file at: ~/.config/inputman/settings.toml",
   "",
   "# How long (ms) a released input still counts toward sequential bindings",
   "release_window_ms = 500",
   "",
   "# Number of recent releases remembered",
   "max_release_sequence_length = 5",
   "",
   "# Number of recent press/release events remembered",
   "max_input_sequence_length = 10",
   "",
   "# Ask the host to suppress the default action of handled events",
   "prevents_default = true",
   "",
   "# \"physical\" binds key codes (KeyD, ShiftLeft); \"logical\" binds key values (d, Shift, +)",
   "key_naming = \"physical\""]

/-- The text of the file; every line is ended. -/
def sample : String := String.join (sampleLines.map (· ++ "\n"))

end KeyBindings.Settings
