import KeyBindings.Main
import KeyBindings.Tracker.Run
import KeyBindings.Settings.Run
import KeyBindings.Proofs.History
import KeyBindings.Proofs.Moments
import KeyBindings.Proofs.Releases
import KeyBindings.Proofs.TrimmedLog
import KeyBindings.Proofs.Completion
import KeyBindings.Proofs.Performance
import KeyBindings.Proofs.Taps
import KeyBindings.Proofs.RaisedLimits
import KeyBindings.Proofs.Standing
import KeyBindings.Proofs.Holds
import KeyBindings.Proofs.ReleaseHistory
import KeyBindings.Proofs.PatternText
import KeyBindings.Proofs.HostEvents
import KeyBindings.Proofs.ManagerRun
import KeyBindings.Proofs.HeldKeys
import KeyBindings.Proofs.Dispatch
import KeyBindings.Proofs.RegistryCalls
import KeyBindings.Proofs.Simultaneous
import KeyBindings.Proofs.Fireable
import KeyBindings.Proofs.FlatNames
import KeyBindings.Proofs.Rendering
import KeyBindings.Proofs.Interference
import KeyBindings.Proofs.DirectCalls
import KeyBindings.Proofs.ExactMatching
import KeyBindings.Proofs.WrittenScripts
import KeyBindings.Proofs.Registration
import KeyBindings.Proofs.ReplayClock
import KeyBindings.Proofs.CommandOutcome
import KeyBindings.Proofs.Tokens
import KeyBindings.Proofs.TextGrammar
import KeyBindings.Proofs.Acceptance
import KeyBindings.Proofs.ChordEquality
import KeyBindings.Proofs.ScriptSeams
import KeyBindings.Proofs.SettingsBuilders
import KeyBindings.Proofs.SettingsFiles
import KeyBindings.Proofs.ListRuns
