import KeyBindings.Command.Run
import KeyBindings.Proofs.Registration

/-!
# What the command leaves

The command goes through stages that may fail -- settings, bindings, script -- and prints. This file
says, for surroundings that are values, when each stage succeeds, that none of them prints, and what
follows for what the command leaves.

* `Options.ofArguments_unchecked` -- the command line without `--check-config` chooses the same but
  for the check;
* `Job.from` -- what a job leaves from what is printed so far; `from_bind_of_ok` and
  `from_bind_of_error` put one stage behind another, `from_bind_quiet` a whole run behind a stage
  that prints nothing;
* `from_printLines` -- lines that are printed stand behind what is there, each with its line feed;
* `chosenSettings`, `scriptContent` -- where settings and script come from;
* `InOrder`, `exists_configured_iff` -- when settings and bindings give a manager;
* **`from_execute`** -- the run in stages: it leaves what was printed before and a failure, or all
  its lines behind that (`linesOf`);
* **`check_agrees_with_run`**: a failure prints nothing, a check succeeds exactly if the
  configuration is in order and fails as the run would, and the run needs a binding and a script
  besides and prints the lines of the replay.
-/

namespace KeyBindings.Command

/-! ## 1. The command line without the check -/

namespace OptionName

/-- How the wish for a check is spelled. -/
def checkFlag : String := "--check-config"

theorem ne_checkConfig_of_ofShort? {letter : Char} {name : OptionName}
    (h : ofShort? letter = some name) : name ≠ .checkConfig := by
  intro hname
  have hshort := List.find?_some h
  rw [hname] at hshort
  exact absurd hshort nofun

theorem toList_long_of_ofLong? {text : List Char} {name : OptionName}
    (h : ofLong? text = some name) : name.long.toList = text := by
  have hlong := List.find?_some h
  exact of_decide_eq_true hlong

end OptionName

open OptionName

namespace Options

variable {o o' : Options} {name : OptionName} {argument : String}

/-- The same choices without the check. -/
def unchecked (o : Options) : Options := { o with checkConfig := false }

/-- The same answer without the check. -/
def uncheckedAnswer (answer : Options × Option OptionName) : Options × Option OptionName :=
  (answer.1.unchecked, answer.2)

theorem set_unchecked (o : Options) (h : name ≠ .checkConfig) :
    o.unchecked.set name = (o.set name).map unchecked := by
  cases name with
  | checkConfig => exact absurd rfl h
  | verbose =>
    show (if o.verbose then _ else _) = Except.map _ (if o.verbose then _ else _)
    split <;> rfl
  | printDefaultConfig =>
    show (if o.printDefaultConfig then _ else _) =
      Except.map _ (if o.printDefaultConfig then _ else _)
    split <;> rfl
  | _ => rfl

theorem give_unchecked (o : Options) (name : OptionName) (value : String) :
    o.unchecked.give name value = (o.give name value).map unchecked := by
  cases name with
  | script =>
    show (givePath .script o.script value).map _ = ((givePath .script o.script value).map _).map _
    cases givePath .script o.script value <;> rfl
  | config =>
    show (givePath .config o.config value).map _ = ((givePath .config o.config value).map _).map _
    cases givePath .config o.config value <;> rfl
  | _ => rfl

/-- No cluster of letters asks for a check. -/
theorem readShort_unchecked (o : Options) (argument : String) (letters : List Char) :
    o.unchecked.readShort argument letters =
      (o.readShort argument letters).map uncheckedAnswer := by
  induction letters generalizing o with
  | nil => rfl
  | cons letter letters ih =>
    rw [readShort, readShort]
    cases hname : ofShort? letter with
    | none => rfl
    | some name =>
      have hne := ne_checkConfig_of_ofShort? hname
      simp only
      split
      · split
        · rfl
        · rw [give_unchecked]
          cases o.give name (attachedValue letters) <;> rfl
      · rw [set_unchecked o hne]
        cases o.set name with
        | error stop => rfl
        | ok set => exact ih set

/-- One long option alone asks for a check. -/
theorem readLong_unchecked (o : Options) (argument : String) {text : List Char}
    (h : text ≠ OptionName.checkConfig.long.toList) :
    o.unchecked.readLong argument text = (o.readLong argument text).map uncheckedAnswer := by
  rw [readLong, readLong]
  cases hname : ofLong? (text.takeWhile (· ≠ '=')) with
  | none => rfl
  | some name =>
    have hsplit : text.takeWhile (· ≠ '=') ++ text.dropWhile (· ≠ '=') = text :=
      List.takeWhile_append_dropWhile
    cases hvalue : text.dropWhile (· ≠ '=') with
    | cons c value =>
      simp only
      rw [give_unchecked]
      cases o.give name (String.ofList value) <;> rfl
    | nil =>
      have hne : name ≠ .checkConfig := by
        intro e
        rw [hvalue, List.append_nil, ← toList_long_of_ofLong? hname, e] at hsplit
        exact h hsplit.symm
      simp only
      split
      · rfl
      · rw [set_unchecked o hne]
        cases o.set name <;> rfl

theorem readArgument_unchecked (o : Options) (h : argument ≠ checkFlag) :
    o.unchecked.readArgument argument = (o.readArgument argument).map uncheckedAnswer := by
  rw [readArgument, readArgument]
  split
  · next text htext =>
    refine readLong_unchecked o argument fun e => h ?_
    refine String.toList_inj.mp ?_
    rw [htext, e]
    rfl
  · exact readShort_unchecked o argument _
  · rfl

/-- The check is asked for, and nothing else. -/
theorem unchecked_of_readArgument_checkFlag {answer : Options × Option OptionName}
    (h : o.readArgument checkFlag = .ok answer) :
    uncheckedAnswer answer = (o.unchecked, .none) := by
  have hset : o.readArgument checkFlag = (o.set .checkConfig).map fun set => (set, .none) := rfl
  rw [hset, set] at h
  split at h
  · exact absurd h nofun
  · obtain rfl := Except.ok.inj h
    rfl

/-- An argument that does not end the options is read, and then the others. -/
theorem read_cons (o : Options) (h : argument ≠ "--") (arguments : List String) :
    o.read .none (argument :: arguments) =
      (o.readArgument argument).bind fun answer => answer.1.read answer.2 arguments := by
  cases arguments with
  | nil =>
    rw [read, if_neg h]
    cases o.readArgument argument <;> rfl
  | cons next arguments =>
    rw [read, if_neg h]
    cases o.readArgument argument <;> rfl

/-- A value is given, and then the other arguments are read. -/
theorem read_value (o : Options) (name : OptionName) (h : looksLikeOption argument = false)
    (arguments : List String) :
    o.read (some name) (argument :: arguments) =
      (o.give name argument).bind fun given => given.read .none arguments := by
  rw [read, if_neg (Bool.eq_false_iff.mp h)]
  cases o.give name argument <;> rfl

/-- **Arguments read alike without the check**, from any point on. -/
theorem read_unchecked {waiting : Option OptionName} {arguments : List String}
    (h : o.read waiting arguments = .ok o') :
    o.unchecked.read waiting (arguments.filter (· ≠ checkFlag)) = .ok o'.unchecked := by
  induction arguments generalizing o waiting with
  | nil =>
    cases waiting with
    | none => exact congrArg (Except.ok ∘ unchecked) (Except.ok.inj h)
    | some name => exact absurd h nofun
  | cons argument arguments ih =>
    cases waiting with
    | some name =>
      cases hvalue : looksLikeOption argument with
      | true =>
        rw [read, if_pos hvalue] at h
        exact absurd h nofun
      | false =>
        have hne : argument ≠ checkFlag := by
          intro e
          rw [e] at hvalue
          exact absurd hvalue (by decide)
        rw [List.filter_cons_of_pos (by simp [hne]), read_value _ name hvalue, give_unchecked]
        rw [read_value o name hvalue] at h
        cases hgive : o.give name argument with
        | error stop =>
          rw [hgive] at h
          exact absurd h nofun
        | ok given =>
          rw [hgive] at h
          exact ih h
    | none =>
      by_cases hend : argument = "--"
      · subst hend
        cases arguments with
        | nil => exact congrArg (Except.ok ∘ unchecked) (Except.ok.inj h)
        | cons next arguments => exact absurd h nofun
      · rw [read_cons o hend] at h
        cases hread : o.readArgument argument with
        | error stop =>
          rw [hread] at h
          exact absurd h nofun
        | ok answer =>
          rw [hread] at h
          have hrest := ih h
          by_cases hflag : argument = checkFlag
          · rw [hflag] at hread
            have hanswer := unchecked_of_readArgument_checkFlag hread
            rw [List.filter_cons_of_neg (by simp [hflag])]
            rw [uncheckedAnswer, Prod.mk.injEq] at hanswer
            rwa [hanswer.1, hanswer.2] at hrest
          · rw [List.filter_cons_of_pos (by simp [hflag]), read_cons _ hend,
              readArgument_unchecked o hflag, hread]
            exact hrest

/-- **The command line without the check chooses the same but for the check.** -/
theorem ofArguments_unchecked {arguments : List String} (h : ofArguments arguments = .ok o) :
    ofArguments (arguments.filter (· ≠ checkFlag)) = .ok o.unchecked :=
  read_unchecked h

end Options

/-! ## 2. Jobs on values -/

variable {α β : Type}

/-- What a job leaves, from what is printed so far. -/
def Job.from (job : Job Id α) (printed : String) : Except Failure α × String :=
  Id.run (job.run.run printed)

/-- What is left behind what was printed before: all lines, or a failure and not one line more. -/
def leaves (printed : String) : Except Failure (List String) → Except Failure Unit × String
  | .error f => (.error f, printed)
  | .ok lines => (.ok (), printed ++ String.join (lines.map (· ++ "\n")))

namespace Job

variable {first : Job Id α} {printed printed' : String}

/-- Where one job succeeds, the next one goes on from what it has printed. -/
theorem from_bind_of_ok {a : α} (h : first.from printed = (.ok a, printed'))
    (next : α → Job Id β) : Job.from (first >>= next) printed = (next a).from printed' := by
  show Id.run (ExceptT.bindCont next (first.from printed).1 (first.from printed).2) = _
  rw [h]
  rfl

/-- Where one job fails, nothing more is printed. -/
theorem from_bind_of_error {f : Failure} (h : first.from printed = (.error f, printed'))
    (next : α → Job Id β) : Job.from (first >>= next) printed = (.error f, printed') := by
  show Id.run (ExceptT.bindCont next (first.from printed).1 (first.from printed).2) = _
  rw [h]
  rfl

/-- **A stage that prints nothing, in front of what leaves lines or a failure**, leaves lines or a
    failure: its own, and then nothing is printed, or what comes of the rest. -/
theorem from_bind_quiet {result : Except Failure α} {next : α → Job Id Unit}
    {rest : α → Except Failure (List String)} (h : first.from printed = (result, printed))
    (hnext : ∀ a, (next a).from printed = leaves printed (rest a)) :
    Job.from (first >>= next) printed = leaves printed (result.bind rest) := by
  cases result with
  | error f => exact from_bind_of_error h next
  | ok a => exact (from_bind_of_ok h next).trans (hnext a)

theorem from_orFail (result : Except Failure α) (printed : String) :
    (orFail result : Job Id α).from printed = (result, printed) := rfl

/-- What is asked prints nothing. -/
theorem from_ask_bind (question : Id α) (next : α → Job Id β) (printed : String) :
    Job.from (ask question >>= next) printed = (next (Id.run question)).from printed := rfl

theorem from_print (text printed : String) :
    (print text : Job Id Unit).from printed = (.ok (), printed ++ text) := rfl

/-- **Lines stand behind what was printed before**, in their order and each with a line feed. -/
theorem from_printLines (lines : List String) (printed : String) :
    (printLines lines : Job Id Unit).from printed = leaves printed (.ok lines) := by
  induction lines generalizing printed with
  | nil => exact congrArg (Prod.mk _) String.append_empty.symm
  | cons line lines ih =>
    refine (from_bind_of_ok (from_print (line ++ "\n") printed) fun _ => printLines lines).trans ?_
    rw [ih, leaves, leaves, String.append_assoc, List.map_cons, String.join_cons]

end Job

/-! ## 3. Stages -/

section Stages

variable {env : Environment Id} {o : Options}

/-- The settings that the options choose: those in the file they name, or else those at the default
    place, or the defaults where there is no such place or nothing is there. -/
def chosenSettings (env : Environment Id) (o : Options) : Except SettingsError Settings :=
  match o.config with
  | some path => Settings.ofFile path (env.file path)
  | none =>
    match env.settingsPath with
    | none => .ok .default
    | some path =>
      if Id.run (env.isThere path) then Settings.ofFile path (env.file path) else .ok .default

/-- What holds the script: the file that the options name, or else standard input. -/
def scriptContent (env : Environment Id) (o : Options) : FileContent :=
  match o.script with
  | some path => env.file path
  | none => env.input

/-- What a failure to load the settings is reported under. -/
def settingsTrouble (o : Options) : String :=
  match o.config with
  | some path => "failed to load settings from " ++ path
  | none => "failed to load default settings"

/-- What a failure to read the script is reported under. -/
def scriptTrouble (o : Options) : String :=
  match o.script with
  | some path => "failed to read script " ++ path
  | none => "failed to read script from stdin"

/-- The settings that the options choose, or the failure that is reported. -/
def loadedSettings (env : Environment Id) (o : Options) : Except Failure Settings :=
  (chosenSettings env o).mapError fun e => (settingsFailure e).under (settingsTrouble o)

/-- The text of what holds the script, or the failure that is reported. -/
def scriptText (env : Environment Id) (o : Options) : Except Failure String :=
  (scriptContent env o).text.mapError fun e => (Failure.of e.message).under (scriptTrouble o)

/-- **Loaded are the settings that the options choose, and nothing is printed.** -/
theorem from_loadSettings (env : Environment Id) (o : Options) (printed : String) :
    (loadSettings env o).from printed = (loadedSettings env o, printed) := by
  unfold loadSettings loadedSettings chosenSettings settingsTrouble
  cases o.config with
  | some path => rfl
  | none =>
    simp only [Job.from_ask_bind, Job.from_orFail]
    cases env.settingsPath with
    | none => rfl
    | some path => rw [Settings.run_loadDefault_some]; rfl

/-- **Read is the text of what holds the script, and nothing is printed.** -/
theorem from_readScriptText (env : Environment Id) (o : Options) (printed : String) :
    (readScriptText env o).from printed = (scriptText env o, printed) := by
  unfold readScriptText scriptText scriptContent scriptTrouble
  cases o.script <;> rfl

/-- The manager that the settings and the bindings give, or why they give none. -/
def configured (env : Environment Id) (o : Options) : Except Failure (Manager Unit) :=
  (loadedSettings env o).bind fun settings => (Manager.new settings).registerAll o.bindings

/-- The steps that the script gives, or why it gives none. -/
def scriptSteps (env : Environment Id) (o : Options) : Except Failure (List Script.Step) :=
  (scriptText env o).bind fun text => (Script.ofText text).mapError Script.Error.failure

theorem configured_eq_ok_iff {m : Manager Unit} :
    configured env o = .ok m ↔
      ∃ settings, chosenSettings env o = .ok settings ∧
        (Manager.new settings).registerAll o.bindings = .ok m := by
  rw [configured, bind_eq_ok_iff]
  refine exists_congr fun settings => ?_
  rw [loadedSettings, mapError_eq_ok_iff]

/-- **A configuration is in order**: the settings load, and every binding is accepted under them. -/
def InOrder (env : Environment Id) (o : Options) : Prop :=
  ∃ settings, chosenSettings env o = .ok settings ∧
    ∀ binding ∈ o.bindings, Pattern.Accepted settings.naming binding

/-- A configuration gives a manager exactly if it is in order. -/
theorem exists_configured_iff : (∃ m, configured env o = .ok m) ↔ InOrder env o := by
  simp only [configured_eq_ok_iff]
  rw [exists_comm]
  refine exists_congr fun settings => ?_
  rw [exists_and_left]
  exact and_congr_right fun _ => Manager.exists_registerAll_iff

/-- **Steps are what the script says** where it is a text. -/
theorem scriptSteps_eq_ok_iff {steps : List Script.Step} :
    scriptSteps env o = .ok steps ↔
      ∃ bytes text, scriptContent env o = .ok bytes ∧ String.fromUTF8? bytes = some text ∧
        Script.ofText text = .ok steps := by
  rw [scriptSteps, bind_eq_ok_iff, exists_comm]
  refine exists_congr fun text => ?_
  rw [scriptText, mapError_eq_ok_iff, mapError_eq_ok_iff, FileContent.text_eq_ok_iff,
    ← exists_and_right]
  exact exists_congr fun bytes => and_assoc

/-! ## 4. The run in stages -/

/-- The lines that the command prints, or its failure: a check ends once there is a manager; a run
    goes on if a binding is given, and replays the script. -/
def linesOf (env : Environment Id) (o : Options) : Except Failure (List String) :=
  (configured env o).bind fun m =>
    if o.checkConfig then .ok [validLine m.registry.size]
    else if m.registry.isEmpty then .error (Failure.of "no bindings given; use --bind")
    else (scriptSteps env o).bind fun steps => .ok (Replay.replay m steps).lines

/-- The default settings are printed without a look at anything. -/
theorem from_execute_of_print (h : o.printDefaultConfig = true) (printed : String) :
    (execute env o).from printed = (.ok (), printed ++ Settings.sample) := by
  rw [execute, if_pos h]
  exact Job.from_print _ _

/-- **The run in stages.** All that can fail comes before the first line, so a failure leaves what
    was printed before. -/
theorem from_execute (h : o.printDefaultConfig = false) (printed : String) :
    (execute env o).from printed = leaves printed (linesOf env o) := by
  rw [execute, if_neg (Bool.eq_false_iff.mp h), linesOf, configured, bind_bind]
  refine Job.from_bind_quiet (from_loadSettings env o printed) fun settings => ?_
  refine Job.from_bind_quiet (Job.from_orFail _ _) fun m => ?_
  split
  · exact Job.from_printLines _ _
  · split
    · rfl
    · rw [scriptSteps, bind_bind]
      refine Job.from_bind_quiet (from_readScriptText env o printed) fun text => ?_
      refine Job.from_bind_quiet (Job.from_orFail _ _) fun steps => ?_
      exact Job.from_printLines _ _

end Stages

/-! ## 5. What is left -/

variable {env : Environment Id} {arguments : List String} {o : Options}

theorem run_eq_ofResult (h : Options.ofArguments arguments = .ok o) (env : Environment Id) :
    Id.run (run env arguments) = Outcome.ofResult ((execute env o).from "") := by
  simp only [run, h]
  rfl

/-- Asked for the default settings, the command leaves these. -/
theorem run_of_print (h : Options.ofArguments arguments = .ok o)
    (hprint : o.printDefaultConfig = true) (env : Environment Id) :
    Id.run (run env arguments) = .done Settings.sample := by
  rw [run_eq_ofResult h, from_execute_of_print hprint, String.empty_append]
  rfl

/-- Otherwise it leaves its lines, or its failure and no line. -/
theorem run_eq_leaves (h : Options.ofArguments arguments = .ok o)
    (hprint : o.printDefaultConfig = false) (env : Environment Id) :
    Id.run (run env arguments) = Outcome.ofResult (leaves "" (linesOf env o)) := by
  rw [run_eq_ofResult h, from_execute hprint]

theorem Outcome.exitCode_leaves_eq_zero_iff {result : Except Failure (List String)} :
    (ofResult (leaves "" result)).exitCode = 0 ↔ ∃ lines, result = .ok lines := by
  cases result with
  | error f => exact iff_of_false Nat.one_ne_zero fun ⟨_, h⟩ => nomatch h
  | ok lines => exact iff_of_true rfl ⟨lines, rfl⟩

/-- **A failure prints nothing.** -/
theorem Outcome.stdout_leaves_of_error {result : Except Failure (List String)}
    (h : (ofResult (leaves "" result)).exitCode ≠ 0) :
    (ofResult (leaves "" result)).stdout = "" := by
  cases result with
  | error f => rfl
  | ok lines => exact absurd rfl h

theorem Outcome.stdout_leaves_ok (lines : List String) :
    (ofResult (leaves "" (.ok lines))).stdout = String.join (lines.map (· ++ "\n")) :=
  String.empty_append

/-- A check succeeds exactly if the configuration is in order. -/
theorem exists_linesOf_of_check (hcheck : o.checkConfig = true) :
    (∃ lines, linesOf env o = .ok lines) ↔ InOrder env o := by
  simp only [linesOf, bind_eq_ok_iff, hcheck, if_true]
  rw [← exists_configured_iff, exists_comm]
  refine exists_congr fun m => ?_
  rw [exists_and_left, and_iff_left ⟨_, rfl⟩]

/-- **A check that fails, fails as the run does.** -/
theorem linesOf_unchecked (hcheck : o.checkConfig = true) {f : Failure}
    (h : linesOf env o = .error f) : linesOf env o.unchecked = .error f := by
  -- the configuration is the same, and it is all that a check can fail at
  have hsame : configured env o.unchecked = configured env o := rfl
  rw [linesOf] at h
  rw [linesOf, hsame]
  cases hm : configured env o with
  | error e =>
    rw [hm] at h
    exact congrArg Except.error (Except.error.inj h)
  | ok m =>
    simp only [hm, Except.bind, hcheck, if_true] at h
    exact absurd h nofun

/-- The bindings of a configuration are those of the options. -/
theorem isEmpty_of_configured {m : Manager Unit} (h : configured env o = .ok m) :
    m.registry.isEmpty = true ↔ o.bindings = [] := by
  obtain ⟨settings, -, hm⟩ := configured_eq_ok_iff.mp h
  have hsize : m.registry.bindings.length = o.bindings.length := Manager.size_of_registerAll hm
  rw [Registry.isEmpty, List.isEmpty_iff, ← List.length_eq_zero_iff, hsize,
    List.length_eq_zero_iff]

/-- **A run prints lines exactly if the configuration is in order, a binding is given and the script
    is readable**, and the lines are then those of the replay. -/
theorem linesOf_eq_ok_iff (hcheck : o.checkConfig = false) {lines : List String} :
    linesOf env o = .ok lines ↔
      ∃ m steps, configured env o = .ok m ∧ o.bindings ≠ [] ∧ scriptSteps env o = .ok steps ∧
        lines = (Replay.replay m steps).lines := by
  rw [linesOf, bind_eq_ok_iff, hcheck]
  refine exists_congr fun m => ?_
  rw [exists_and_left, if_neg Bool.false_ne_true]
  refine and_congr_right fun hm => ?_
  by_cases hempty : o.bindings = []
  · rw [if_pos ((isEmpty_of_configured hm).mpr hempty)]
    exact iff_of_false nofun fun ⟨_, h, _⟩ => h hempty
  · rw [if_neg fun h => hempty ((isEmpty_of_configured hm).mp h), bind_eq_ok_iff]
    refine exists_congr fun steps => ?_
    rw [and_iff_right hempty, Except.ok.injEq, eq_comm (a := lines)]

/-- A run succeeds exactly if moreover there are a binding and a script. -/
theorem exists_linesOf_of_run (hcheck : o.checkConfig = false) :
    (∃ lines, linesOf env o = .ok lines) ↔ InOrder env o ∧ o.bindings ≠ [] ∧
      ∃ bytes text steps, scriptContent env o = .ok bytes ∧
        String.fromUTF8? bytes = some text ∧ Script.ofText text = .ok steps := by
  rw [← exists_configured_iff]
  constructor
  · intro h
    obtain ⟨lines, hlines⟩ := h
    obtain ⟨m, steps, hm, hbindings, hsteps, -⟩ := (linesOf_eq_ok_iff hcheck).mp hlines
    obtain ⟨bytes, text, hscript⟩ := scriptSteps_eq_ok_iff.mp hsteps
    exact ⟨⟨m, hm⟩, hbindings, bytes, text, steps, hscript⟩
  · intro h
    obtain ⟨⟨m, hm⟩, hbindings, bytes, text, steps, hscript⟩ := h
    have hsteps := scriptSteps_eq_ok_iff.mpr ⟨bytes, text, hscript⟩
    exact ⟨_, (linesOf_eq_ok_iff hcheck).mpr ⟨m, steps, hm, hbindings, hsteps, rfl⟩⟩

/-- **A check agrees with the run, and no failure prints anything.** Whatever the surroundings
    hold, a command that fails prints nothing, and one that is asked for the default settings prints
    them. A check succeeds exactly if the settings load and every binding is accepted; where it
    fails, the same command without the check leaves the same. A run succeeds exactly if moreover a
    binding is given and the script is a text that reads as steps; then it prints the lines of the
    replay, each with a line feed, and nothing else. -/
theorem check_agrees_with_run (h : Options.ofArguments arguments = .ok o) (env : Environment Id) :
    let out := Id.run (run env arguments)
    (out.exitCode ≠ 0 → out.stdout = "") ∧
    (o.printDefaultConfig = true → out = .done Settings.sample) ∧
    (o.printDefaultConfig = false → o.checkConfig = true →
      (out.exitCode = 0 ↔ InOrder env o) ∧
      (out.exitCode ≠ 0 → Id.run (run env (arguments.filter (· ≠ checkFlag))) = out)) ∧
    (o.printDefaultConfig = false → o.checkConfig = false →
      (out.exitCode = 0 ↔ InOrder env o ∧ o.bindings ≠ [] ∧
        ∃ bytes text steps, scriptContent env o = .ok bytes ∧
          String.fromUTF8? bytes = some text ∧ Script.ofText text = .ok steps) ∧
      (out.exitCode = 0 →
        ∃ settings m bytes text steps, chosenSettings env o = .ok settings ∧
          (Manager.new settings).registerAll o.bindings = .ok m ∧
          scriptContent env o = .ok bytes ∧ String.fromUTF8? bytes = some text ∧
          Script.ofText text = .ok steps ∧
          out.stdout = String.join ((Replay.replay m steps).lines.map (· ++ "\n")))) := by
  intro out
  have hlines (hprint : o.printDefaultConfig = false) :
      out = Outcome.ofResult (leaves "" (linesOf env o)) := run_eq_leaves h hprint env
  refine ⟨fun hfail => ?_, fun hprint => run_of_print h hprint env,
    fun hprint hcheck => ⟨?_, fun hfail => ?_⟩, fun hprint hcheck => ⟨?_, fun hdone => ?_⟩⟩
  · cases hprint : o.printDefaultConfig with
    | true => exact absurd (congrArg Outcome.exitCode (run_of_print h hprint env)) hfail
    | false =>
      rw [hlines hprint] at hfail ⊢
      exact Outcome.stdout_leaves_of_error hfail
  · rw [hlines hprint, Outcome.exitCode_leaves_eq_zero_iff, exists_linesOf_of_check hcheck]
  · rw [hlines hprint] at hfail ⊢
    have hunchecked := Options.ofArguments_unchecked h
    have hprint' : o.unchecked.printDefaultConfig = false := hprint
    cases hresult : linesOf env o with
    | ok lines => exact absurd (Outcome.exitCode_leaves_eq_zero_iff.mpr ⟨lines, hresult⟩) hfail
    | error f => rw [run_eq_leaves hunchecked hprint', linesOf_unchecked hcheck hresult]
  · rw [hlines hprint, Outcome.exitCode_leaves_eq_zero_iff, exists_linesOf_of_run hcheck]
  · rw [hlines hprint] at hdone ⊢
    obtain ⟨lines, hresult⟩ := Outcome.exitCode_leaves_eq_zero_iff.mp hdone
    obtain ⟨m, steps, hm, -, hsteps, rfl⟩ := (linesOf_eq_ok_iff hcheck).mp hresult
    obtain ⟨settings, hsettings, hall⟩ := configured_eq_ok_iff.mp hm
    obtain ⟨bytes, text, hbytes, hutf8, hread⟩ := scriptSteps_eq_ok_iff.mp hsteps
    refine ⟨settings, m, bytes, text, steps, hsettings, hall, hbytes, hutf8, hread, ?_⟩
    rw [hresult, Outcome.stdout_leaves_ok]

/-- Surroundings with a script on standard input, and nothing else. -/
def scriptOnInput (script : String) : Environment Id :=
  ⟨fun _ => false, fun _ => .error .notFound, .ok script.toUTF8, none⟩

/-- The last line of a script is bad, so nothing is printed of what the lines before it fire.
    Without that line all of it is printed. And a check refuses a binding in the words of the
    run. -/
theorem lines_printed_unless_late_error :
    let arguments := ["-b", "KeyD", "-b", "KeyD > KeyD"]
    let script := "press KeyD\nrelease KeyD\nwait 7\npress KeyD\n"
    let failing := Id.run (run (scriptOnInput (script ++ "hop KeyD")) arguments)
    let done := Id.run (run (scriptOnInput script) arguments)
    let refused := Id.run (run (scriptOnInput script) ["-b", "+", "--check-config"])
    failing.exitCode ≠ 0 ∧ failing.stdout = "" ∧ done.exitCode = 0 ∧
      done.stdout = "[     0ms] fired #0 KeyD\n[     7ms] fired #0 KeyD\n" ++
        "[     7ms] fired #1 KeyD > KeyD\n" ∧
      refused.stderr = "Error: invalid binding '+'\n\n" ++
        "Caused by:\n    binding string contains no inputs\n" ∧
      Id.run (run (scriptOnInput script) ["-b", "+"]) = refused := by
  intro arguments script failing done refused
  have h : Options.ofArguments arguments =
      .ok ⟨["KeyD", "KeyD > KeyD"], none, none, false, false, false⟩ := rfl
  have hregistered : (Manager.new .default).registerAll ["KeyD", "KeyD > KeyD"] = .ok _ := rfl
  have hutf8 : String.fromUTF8? script.toUTF8 = some script := by decide +kernel
  have hsteps : Script.ofText script = .ok [.input .press "KeyD", .input .release "KeyD", .wait 7,
      .input .press "KeyD"] := by decide +kernel
  have hfail : failing.exitCode ≠ 0 := by decide +kernel
  have hrun := (check_agrees_with_run h (scriptOnInput script)).2.2.2 rfl rfl
  have hdone : done.exitCode = 0 :=
    hrun.1.mpr ⟨⟨.default, rfl, Manager.exists_registerAll_iff.mp ⟨_, hregistered⟩⟩, nofun,
      _, _, _, rfl, hutf8, hsteps⟩
  have hcheck : Options.ofArguments ["-b", "+", "--check-config"] =
      .ok ⟨["+"], none, none, false, true, false⟩ := rfl
  have hrefused : refused.exitCode ≠ 0 := by decide +kernel
  have hsame := ((check_agrees_with_run hcheck (scriptOnInput script)).2.2.1 rfl rfl).2 hrefused
  refine ⟨hfail, (check_agrees_with_run h _).1 hfail, hdone, ?_, by decide +kernel, hsame⟩
  -- what the run is made of is determined, so its lines can be read off
  obtain ⟨settings, m, bytes, text, steps, hsettings, hm, hbytes, htext, hread, hstdout⟩ :=
    hrun.2 hdone
  obtain rfl : Settings.default = settings := Except.ok.inj hsettings
  obtain rfl : script.toUTF8 = bytes := Except.ok.inj hbytes
  obtain rfl : script = text := Option.some.inj (hutf8.symm.trans htext)
  obtain rfl := Except.ok.inj (hsteps.symm.trans hread)
  obtain rfl := Except.ok.inj (hregistered.symm.trans hm)
  refine hstdout.trans ?_
  decide +kernel

end KeyBindings.Command
