import KeyBindings.Proofs.ManagerRun

/-!
# Which inputs stay held

Held is a set of NAMES: it does not count who pressed them. Keys and buttons that count under one
name -- both Shift keys by their text, all further mouse buttons -- share one hold. What that means
for a host's stream of events:

* **`held_pressed_by_down`**: nothing sticks. Where transitions alternate, each held input is what
  some source is still down as; with every source up, nothing is held;
* **`held_of_down_iff`**: an input that a source is down as stays held until ANOTHER source lets it
  go, and is held again once it is pressed again. So sharing a name costs holds
  (`shared_name_not_held`);
* **`held_after_release_iff`**: a release frees what its key was last pressed as. What the key was
  pressed as before that, without a release in between, is freed only where something else has let
  it go: the table keeps one input for each code (`overwritten_input_held`).

Every stream begins with a new manager, and live input may be forgotten at any point of it.
-/

namespace KeyBindings

variable {α : Type}

/-! ## 1. Nothing sticks -/

/-- **No stuck input.** Where the transitions of each key and each button alternate, every held input
    is what a source that is still down was last pressed as, since live input was last forgotten.
    With every source up nothing is held. -/
theorem held_pressed_by_down (settings : Settings) {ops : List (ManagerOp α)}
    (hops : ∀ op ∈ ops, op.fromHost = true) (halt : (Events.ofOps ops).Alternating) :
    let held := ((Manager.new settings).run ops).tracker.held
    (∀ input ∈ held.members,
      ∃ source, (Events.sinceClear ops).downAs? settings.naming source = some input) ∧
    ((∀ source, (Events.ofOps ops).isDown source = false) → held = .empty) := by
  intro held
  obtain ⟨older, ho⟩ := Events.sinceClear_suffix ops
  have hdown : ∀ input ∈ held.members,
      ∃ source, (Events.sinceClear ops).downAs? settings.naming source = some input := by
    intro input hi
    have hstays := (Manager.mem_held_run_iff settings hops).mp hi
    rw [← ho] at halt
    exact Events.exists_downAs?_of_stays halt hstays
  refine ⟨hdown, fun hup => Chord.ext (List.eq_nil_iff_forall_not_mem.mpr fun input hi => ?_)⟩
  obtain ⟨source, hs⟩ := hdown input hi
  have hisDown : (Events.ofOps ops).isDown source = true :=
    Events.isDown_of_suffix (Events.sinceClear_suffix ops) (Events.isDown_of_downAs? hs)
  rw [hup source] at hisDown
  exact Bool.noConfusion hisDown

/-- `+` goes down with Shift and comes up as `=`; a key is down while live input is forgotten, and
    comes up with another's text. What is still held is what the button was pressed as. -/
theorem button_holds_after_clear :
    let settings := Settings.default.withNaming .logical
    let ops : List (ManagerOp Unit) :=
      [.handle (.key "KeyQ" "q" .press) 0, .clear, .handle (.key "Equal" "+" .press) 10,
        .handle (.key "Equal" "+" .repeat) 20, .handle (.mouse 0 .press) 30,
        .handle (.key "Equal" "=" .release) 40, .handle (.key "KeyQ" "" .release) 50]
    (∀ op ∈ ops, op.fromHost = true) ∧ (Events.ofOps ops).Alternating ∧
      ∃ source, (Events.sinceClear ops).downAs? settings.naming source = some "Mouse1" := by
  intro settings ops
  have hops : ∀ op ∈ ops, op.fromHost = true := by decide
  have halt : (Events.ofOps ops).Alternating := by decide
  have hheld : "Mouse1" ∈ ((Manager.new settings).run ops).tracker.held.members := by decide
  exact ⟨hops, halt, (held_pressed_by_down settings hops halt).1 "Mouse1" hheld⟩

/-! ## 2. Sharing a name -/

/-- **An input that a source is down as is held exactly when it has been pressed again after each
    time that another source let it go.** So it stays held while no other source lets it go. -/
theorem held_of_down_iff (settings : Settings) {ops : List (ManagerOp α)}
    (hops : ∀ op ∈ ops, op.fromHost = true) {source : Source} {input : Input}
    (hdown : (Events.sinceClear ops).downAs? settings.naming source = some input) :
    input ∈ ((Manager.new settings).run ops).tracker.held.members ↔
      ∀ older event newer, Events.sinceClear ops = older ++ event :: newer →
        event.source ≠ source → Events.letsGo? older settings.naming event = some input →
          ∃ later ∈ newer, later.Presses settings.naming input := by
  rw [Manager.mem_held_run_iff settings hops, Events.Stays,
    and_iff_right (Events.exists_press_of_downAs? hdown)]
  constructor
  · intro hstays older event newer he _ hgo
    refine Decidable.byContradiction fun hnone => hstays ⟨older, event, newer, he, hgo, ?_⟩
    exact fun later hl hp => hnone ⟨later, hl, hp⟩
  · rintro hagain ⟨older, event, newer, he, hgo, hlater⟩
    rw [he] at hdown
    have hother : event.source ≠ source := Events.source_ne_of_letsGo? hgo hlater hdown
    obtain ⟨later, hl, hp⟩ := hagain older event newer he hother hgo
    exact hlater later hl hp

/-- Both Shift keys are down under one name; one goes up and down again, and the name is held. -/
theorem shift_held_once_pressed_again :
    let settings := Settings.default.withNaming .logical
    let ops : List (ManagerOp Unit) :=
      [.handle (.key "ShiftLeft" "Shift" .press) 0, .handle (.key "ShiftRight" "Shift" .press) 10,
        .handle (.key "ShiftLeft" "Shift" .release) 20, .handle (.key "ShiftLeft" "Shift" .press) 30]
    (∀ op ∈ ops, op.fromHost = true) ∧
      (Events.sinceClear ops).downAs? settings.naming (.key "ShiftRight") = some "Shift" ∧
      "Shift" ∈ ((Manager.new settings).run ops).tracker.held.members ∧
      ∀ older event newer, Events.sinceClear ops = older ++ event :: newer →
        event.source ≠ .key "ShiftRight" →
          Events.letsGo? older settings.naming event = some "Shift" →
            ∃ later ∈ newer, later.Presses settings.naming "Shift" := by
  intro settings ops
  have hops : ∀ op ∈ ops, op.fromHost = true := by decide
  have hdown : (Events.sinceClear ops).downAs? settings.naming (.key "ShiftRight") =
      some "Shift" := by
    decide
  have hheld : "Shift" ∈ ((Manager.new settings).run ops).tracker.held.members := by decide
  exact ⟨hops, hdown, hheld, (held_of_down_iff settings hops hdown).mp hheld⟩

/-- **A shared name is not held while one of its keys is still down**: the right Shift key stays
    down, the left one goes up. -/
theorem shared_name_not_held :
    ¬ ∀ (settings : Settings) (ops : List (ManagerOp Unit)),
      (∀ op ∈ ops, op.fromHost = true) →
        (∀ event ∈ Events.ofOps ops, event.hasText = true) → (Events.ofOps ops).Alternating →
          ∀ source input,
            (Events.sinceClear ops).downAs? settings.naming source = some input →
              input ∈ ((Manager.new settings).run ops).tracker.held.members := by
  intro hall
  have hheld := hall (Settings.default.withNaming .logical)
    [.handle (.key "ShiftLeft" "Shift" .press) 0, .handle (.key "ShiftRight" "Shift" .press) 10,
      .handle (.key "ShiftLeft" "Shift" .release) 20]
    (by decide) (by decide) (by decide)
    (.key "ShiftRight") "Shift" (by decide)
  exact absurd hheld (by decide)

/-! ## 3. Pressed again without a release -/

/-- **What a release frees.** Of the inputs that a key was pressed as since its release before, the
    newest is free right after its release, whoever else is down; any other is held exactly when
    nothing has let it go since it was last pressed. Named by its place a key frees all of them. -/
theorem held_after_release_iff (settings : Settings) {ops : List (ManagerOp α)}
    (hops : ∀ op ∈ ops, op.fromHost = true) {code : String} (hcode : code ≠ "") (text : String)
    (now : Instant) :
    let past := Events.sinceClear ops
    let pressed := past.pressedAs settings.naming (.key code)
    let held := ((Manager.new settings).run
      (ops ++ [.handle (.key code text .release) now])).tracker.held
    (∀ input ∈ pressed, input ∈ held.members ↔
      pressed.getLast? ≠ some input ∧ ¬ past.LetGo settings.naming input) ∧
    (settings.naming = .physical → ∀ input ∈ pressed, input ∉ held.members) := by
  intro past pressed held
  have hall : ∀ op ∈ ops ++ [.handle (.key code text .release) now], op.fromHost = true := by
    intro op hop
    rcases List.mem_append.mp hop with hop | hop
    · exact hops op hop
    · rw [List.mem_singleton.mp hop]
      exact decide_eq_true fun e => hcode (Source.key.inj e)
  have hsince : Events.sinceClear (ops ++ [.handle (.key code text .release) now]) =
      past ++ [.key code text .release] := Events.sinceClear_concat _ _
  have hiff : ∀ input ∈ pressed, input ∈ held.members ↔
      pressed.getLast? ≠ some input ∧ ¬ past.LetGo settings.naming input := by
    intro input hi
    have hgo : past.letsGo? settings.naming (.key code text .release) = pressed.getLast? :=
      Events.letsGo?_of_mem_pressedAs hi nofun
    have hnot : ¬ (Event.key code text .release).Presses settings.naming input :=
      fun hp => absurd hp.1 nofun
    rw [Manager.mem_held_run_iff settings hall, hsince, Events.stays_concat, or_iff_right hnot, hgo,
      Events.stays_iff_of_mem_pressedAs hi, and_comm]
  refine ⟨hiff, fun hphysical input hi hheld => ((hiff input hi).mp hheld).1 ?_⟩
  have hname : ∀ i ∈ pressed, i = code := by
    intro i hmem
    have hplace : i ∈ past.pressedAs .physical (.key code) := by
      rw [← hphysical]
      exact hmem
    exact Events.eq_code_of_mem_pressedAs_physical hplace
  have hne : pressed ≠ [] := List.ne_nil_of_mem hi
  calc
    pressed.getLast? = some (pressed.getLast hne) := List.getLast?_eq_some_getLast hne
    _ = some code := congrArg some (hname _ (List.getLast_mem hne))
    _ = some input := congrArg some (hname input hi).symm

/-- A key is pressed as `+` and, its release lost, as `=`: when it comes up `=` is free. -/
theorem newest_press_freed :
    let settings := Settings.default.withNaming .logical
    let ops : List (ManagerOp Unit) :=
      [.handle (.key "Equal" "+" .press) 0, .handle (.key "Equal" "=" .press) 10]
    (∀ op ∈ ops, op.fromHost = true) ∧ "Equal" ≠ "" ∧
      (Events.sinceClear ops).pressedAs settings.naming (.key "Equal") = ["+", "="] ∧
      "=" ∉ ((Manager.new settings).run
        (ops ++ [.handle (.key "Equal" "=" .release) 20])).tracker.held.members := by
  intro settings ops
  have hops : ∀ op ∈ ops, op.fromHost = true := by decide
  have hcode : "Equal" ≠ "" := by decide
  have hpressed : (Events.sinceClear ops).pressedAs settings.naming (.key "Equal") = ["+", "="] := by
    decide
  have hmem : "=" ∈ (Events.sinceClear ops).pressedAs settings.naming (.key "Equal") := by decide
  refine ⟨hops, hcode, hpressed, fun hheld => ?_⟩
  have hnot := ((held_after_release_iff settings hops hcode "=" 20).1 "=" hmem).mp hheld
  exact hnot.1 (congrArg List.getLast? hpressed)

/-- **What a key was pressed as before its last press may stay held with every source up.** -/
theorem overwritten_input_held :
    ¬ ∀ (settings : Settings) (ops : List (ManagerOp Unit)) (code text : String) (now : Instant),
      (∀ op ∈ ops, op.fromHost = true) → code ≠ "" →
        ∀ input ∈ (Events.sinceClear ops).pressedAs settings.naming (.key code),
          input ∈ ((Manager.new settings).run
            (ops ++ [.handle (.key code text .release) now])).tracker.held.members →
          ∃ source, source ≠ .key code ∧ (Events.sinceClear ops).isDown source = true ∧
            input ∈ (Events.sinceClear ops).pressedAs settings.naming source := by
  intro hall
  obtain ⟨source, hother, -, hpressed⟩ := hall (Settings.default.withNaming .logical)
    [.handle (.key "Equal" "+" .press) 0, .handle (.key "Equal" "=" .press) 10] "Equal" "=" 20
    (by decide) (by decide) "+" (by decide) (by decide)
  obtain ⟨event, he, hs, -⟩ := Events.exists_press_of_mem_pressedAs hpressed
  have hequal : ∀ e ∈ [Event.key "Equal" "+" .press, .key "Equal" "=" .press],
      e.source = .key "Equal" := by decide
  exact hother (hs.symm.trans (hequal event he))

end KeyBindings
