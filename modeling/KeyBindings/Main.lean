import KeyBindings.Command.Run
import KeyBindings.Files.FileSystem

/-!
# The program

The outer layer: real files, real standard streams and the real environment, and nothing decided.
-/

namespace KeyBindings.Command

/-- The number of an error, which is reported with or without a minus sign. -/
def errorNumber (code : UInt32) : UInt32 := if code < 0x80000000 then code else 0 - code

/-- The reason for a failed read, by the number the system gives it. -/
def readErrorOfCode (code : UInt32) (details : String) : ReadError :=
  let code := errorNumber code
  if code = 2 then .notFound
  else if code = 20 then .notDirectory
  else if code = 21 then .isDirectory
  else if code = 36 then .nameTooLong
  else .other (details ++ " (os error " ++ toString code ++ ")")

/-- The reason for a failed read, as the system reports it. -/
def readErrorOf (e : IO.Error) : ReadError :=
  match e with
  | .noFileOrDirectory _ code details | .inappropriateType _ code details
  | .permissionDenied _ code details | .invalidArgument _ code details
  | .resourceExhausted _ code details | .noSuchThing _ code details
  | .otherError code details => readErrorOfCode code details
  | other => .other (toString other)

/-- The bytes that an action reads. -/
def tryRead (action : IO ByteArray) : IO FileContent := do
  try
    return .ok (← action)
  catch e =>
    return .error (readErrorOf e)

/-- Whether a path leads anywhere. What cannot be found out counts as no. -/
def tryFind (path : String) : IO Bool := do
  try
    let _ ← IO.FS.realPath path
    return true
  catch _ =>
    return false

/-- A path with a NUL in it is none that the system could be asked about. -/
def holdsNul (path : String) : Bool := path.toList.contains '\x00'

/-- Where settings are in a configuration directory. -/
def settingsIn (directory : String) : String := directory ++ "/inputman/settings.toml"

/-- Where settings are by default: in the user's configuration directory. -/
def defaultSettingsPath : IO (Option String) := do
  if let some directory ← IO.getEnv "XDG_CONFIG_HOME" then
    if FileSystem.isAbsolute directory then
      return some (settingsIn directory)
  let home ← IO.getEnv "HOME"
  return home.map fun directory => settingsIn (directory ++ "/.config")

/-- The surroundings of a running program. -/
def systemEnvironment : IO (Environment IO) := do
  let path ← defaultSettingsPath
  return {
    isThere := fun path => if holdsNul path then return false else tryFind path
    file := fun path =>
      if holdsNul path then return .error .nulInPath
      else tryRead (IO.FS.readBinFile path)
    input := do
      let input ← IO.getStdin
      tryRead input.readBinToEnd
    settingsPath := path }

end KeyBindings.Command

def main (arguments : List String) : IO UInt32 := do
  let env ← KeyBindings.Command.systemEnvironment
  let outcome ← KeyBindings.Command.run env arguments
  IO.print outcome.stdout
  IO.eprint outcome.stderr
  return outcome.exitCode.toUInt32
