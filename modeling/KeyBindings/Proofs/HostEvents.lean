import KeyBindings.Input.Event
import Mathlib.Data.List.Chain
import Mathlib.Data.List.DropRight

/-!
# What a host's events say

A host tells keys apart by their codes and mouse buttons by their numbers; an input is only a name,
and several keys or buttons may count under one name. Here the transitions of a host are a list,
oldest first, and everything is read off that list -- no manager and no tracker is asked.

* `Source` -- a key or a mouse button;
* `Events.isDown`, `Events.downAs?` -- whether the latest transition of a source is a press, and
  which input that press was;
* `Events.pressedAs` -- every input that a source was pressed as since its latest release;
* `Events.letsGo?` -- the input that a release lets go: what its source was last pressed as, and
  only if nothing is known of that the name of the release itself;
* `Events.LetGo`, `Events.Stays` -- an input was let go and has not been pressed since, or it was
  pressed and has not been let go since;
* `Events.Alternating` -- every source goes down, up, down, and so on.

Each has its equation for one more transition; proofs about runs use nothing else.
-/

namespace KeyBindings

/-! ## 1. Sources -/

/-- Where an event comes from: a key, known by its code, or a mouse button, known by its number. -/
inductive Source where
  | key (code : String)
  | button (number : Nat)
  deriving DecidableEq, Repr

namespace Event

def source : Event → Source
  | .key code _ _ => .key code
  | .mouse number _ => .button number

/-- Whether an event is a press that counts under an input. -/
def Presses (naming : KeyNaming) (event : Event) (input : Input) : Prop :=
  event.action = .press ∧ event.input? naming = some input

instance (naming : KeyNaming) (event : Event) (input : Input) :
    Decidable (event.Presses naming input) :=
  inferInstanceAs (Decidable (_ ∧ _))

/-- Whether an event, if it is of a key, carries a text. -/
def hasText : Event → Bool
  | .key _ text _ => text ≠ ""
  | .mouse _ _ => true

theorem source_key_eq_iff {code code' text : String} {action : Action} :
    (key code' text action).source = .key code ↔ code = code' := by
  rw [source, Source.key.injEq, eq_comm]

/-- A mouse button counts under one input, whatever happens to it. -/
theorem input?_of_source_button {event : Event} {number : Nat} (h : event.source = .button number)
    (naming : KeyNaming) : event.input? naming = some (mouseButtonName number) := by
  cases event with
  | key code text action => exact absurd h nofun
  | mouse number' action =>
    obtain rfl := Source.button.inj h
    rfl

/-- Named by its place, a key counts under its code alone. -/
theorem eq_code_of_input?_physical {event : Event} {code : String} {input : Input}
    (h : event.source = .key code) (hi : event.input? .physical = some input) : input = code := by
  cases event with
  | key code' text action =>
    obtain rfl := Source.key.inj h
    rw [input?, KeyNaming.pick, Option.ite_none_left_eq_some] at hi
    exact (Option.some.inj hi.2).symm
  | mouse number action => cases h

end Event

/-! ## 2. Transitions, source by source -/

/-- Transitions that a host has reported, oldest first. -/
abbrev Events : Type := List Event

namespace Events

variable {past : Events} {naming : KeyNaming} {event : Event} {source : Source} {input : Input}

/-- The transitions of one source. -/
def ofSource (past : Events) (source : Source) : Events := past.filter (·.source = source)

/-- Whether the latest transition of a source is a press. -/
def isDown (past : Events) (source : Source) : Bool :=
  (past.ofSource source).getLast?.any (·.action = .press)

/-- The input that the latest transition of a source pressed, if it is a press with a name. -/
def downAs? (past : Events) (naming : KeyNaming) (source : Source) : Option Input :=
  (past.ofSource source).getLast?.bind fun event =>
    if event.action = .press then event.input? naming else none

/-- The inputs that a source was pressed as since its latest release, oldest first. -/
def pressedAs (past : Events) (naming : KeyNaming) (source : Source) : List Input :=
  ((past.ofSource source).rtakeWhile (·.action = .press)).filterMap (·.input? naming)

theorem ofSource_append (past newer : Events) (source : Source) :
    ofSource (past ++ newer) source = past.ofSource source ++ newer.ofSource source :=
  List.filter_append ..

theorem ofSource_concat (past : Events) (event : Event) (source : Source) :
    ofSource (past ++ [event]) source =
      if event.source = source then past.ofSource source ++ [event] else past.ofSource source := by
  rw [ofSource_append]
  by_cases h : event.source = source <;> simp [ofSource, h]

theorem downAs?_concat (past : Events) (naming : KeyNaming) (event : Event) (source : Source) :
    downAs? (past ++ [event]) naming source =
      if event.source = source then
        if event.action = .press then event.input? naming else none
      else past.downAs? naming source := by
  rw [downAs?, ofSource_concat]
  split
  · rw [List.getLast?_concat, Option.bind_some]
  · rfl

theorem pressedAs_concat (past : Events) (naming : KeyNaming) (event : Event) (source : Source) :
    pressedAs (past ++ [event]) naming source =
      if event.source = source then
        if event.action = .press then
          past.pressedAs naming source ++ (event.input? naming).toList
        else []
      else past.pressedAs naming source := by
  rw [pressedAs, ofSource_concat]
  split
  · rw [List.rtakeWhile_concat]
    by_cases hp : event.action = .press
    · rw [if_pos (decide_eq_true hp), if_pos hp, List.filterMap_append]
      cases hi : event.input? naming <;> simp [pressedAs, hi]
    · rw [if_neg (by simpa using hp), if_neg hp, List.filterMap_nil]
  · rfl

/-- A source is down as an input when its latest transition is a press of that input. -/
theorem downAs?_eq_some_iff :
    past.downAs? naming source = some input ↔
      ∃ event ∈ (past.ofSource source).getLast?, event.Presses naming input := by
  rw [downAs?, Option.bind_eq_some_iff]
  refine exists_congr fun event => and_congr_right fun _ => ?_
  by_cases hp : event.action = .press
  · rw [if_pos hp, Event.Presses, and_iff_right hp]
  · rw [if_neg hp]
    exact iff_of_false nofun fun h => hp h.1

theorem isDown_of_downAs? (h : past.downAs? naming source = some input) :
    past.isDown source = true := by
  obtain ⟨event, he, hp, -⟩ := downAs?_eq_some_iff.mp h
  rw [isDown, he, Option.any_some]
  exact decide_eq_true hp

theorem exists_press_of_downAs? (h : past.downAs? naming source = some input) :
    ∃ event ∈ past, event.Presses naming input := by
  obtain ⟨event, he, hp⟩ := downAs?_eq_some_iff.mp h
  exact ⟨event, List.mem_of_mem_filter (List.mem_of_getLast? he), hp⟩

/-- A source that is down as an input was last pressed as that input. -/
theorem getLast?_pressedAs_of_downAs? (h : past.downAs? naming source = some input) :
    (past.pressedAs naming source).getLast? = some input := by
  obtain ⟨event, he, hp, hi⟩ := downAs?_eq_some_iff.mp h
  obtain ⟨before, hb⟩ := List.getLast?_eq_some_iff.mp he
  rw [pressedAs, hb, List.rtakeWhile_concat, if_pos (decide_eq_true hp), List.filterMap_append,
    List.filterMap_cons_some hi, List.filterMap_nil, List.getLast?_concat]

theorem exists_press_of_mem_pressedAs (h : input ∈ past.pressedAs naming source) :
    ∃ event ∈ past, event.source = source ∧ event.Presses naming input := by
  obtain ⟨event, he, hi⟩ := List.mem_filterMap.mp h
  obtain ⟨hmem, hs⟩ := List.mem_filter.mp ((List.rtakeWhile_suffix _ _).subset he)
  have hp := List.mem_rtakeWhile_imp he
  exact ⟨event, hmem, of_decide_eq_true hs, of_decide_eq_true hp, hi⟩

/-- Named by its place, a key is pressed as its code alone. -/
theorem eq_code_of_mem_pressedAs_physical {code : String}
    (h : input ∈ past.pressedAs .physical (.key code)) : input = code := by
  obtain ⟨event, -, hs, -, hi⟩ := exists_press_of_mem_pressedAs h
  exact Event.eq_code_of_input?_physical hs hi

/-- Newer transitions say more: a source that is down by them is down by all. -/
theorem isDown_of_suffix {newest : Events} (hs : newest <:+ past)
    (h : newest.isDown source = true) : past.isDown source = true := by
  obtain ⟨older, rfl⟩ := hs
  obtain ⟨event, he, hp⟩ := (Option.any_eq_true ..).mp h
  rw [isDown, ofSource_append, List.getLast?_append, he, Option.some_or, Option.any_some]
  exact hp

/-! ## 3. Letting go -/

/-- The input that a transition lets go, coming after some others: a release lets go what its source
    was last pressed as since its release before, and otherwise the input it names itself. -/
def letsGo? (past : Events) (naming : KeyNaming) (event : Event) : Option Input :=
  if event.action = .press then none
  else (past.pressedAs naming event.source).getLast?.or (event.input? naming)

/-- An input was let go, and nothing has been pressed as it since. -/
def LetGo (past : Events) (naming : KeyNaming) (input : Input) : Prop :=
  ∃ older event newer, past = older ++ event :: newer ∧
    letsGo? older naming event = some input ∧ ∀ later ∈ newer, ¬ later.Presses naming input

theorem letsGo?_of_press (h : event.action = .press) : past.letsGo? naming event = none := if_pos h

/-- A mouse button lets go the one input that it counts under. -/
theorem letsGo?_of_source_button {number : Nat} (h : event.source = .button number)
    (hr : event.action ≠ .press) :
    past.letsGo? naming event = event.input? naming := by
  rw [letsGo?, if_neg hr, h]
  cases hl : (past.pressedAs naming (.button number)).getLast? with
  | none => rw [Option.none_or]
  | some input =>
    obtain ⟨press, -, hs, -, hi⟩ := exists_press_of_mem_pressedAs (List.mem_of_getLast? hl)
    rw [Option.some_or, ← hi, Event.input?_of_source_button hs, Event.input?_of_source_button h]

/-- A source that was pressed as something lets the newest of it go. -/
theorem letsGo?_of_mem_pressedAs (h : input ∈ past.pressedAs naming event.source)
    (hr : event.action ≠ .press) :
    past.letsGo? naming event = (past.pressedAs naming event.source).getLast? := by
  rw [letsGo?, if_neg hr, List.getLast?_eq_some_getLast (List.ne_nil_of_mem h), Option.some_or]

/-- **An input is let go by the newest transition, or was before and the newest is no press of
    it.** -/
theorem letGo_concat :
    LetGo (past ++ [event]) naming input ↔
      past.letsGo? naming event = some input ∨
        past.LetGo naming input ∧ ¬ event.Presses naming input := by
  constructor
  · intro h
    obtain ⟨older, e, newer, he, hgo, hlater⟩ := h
    rcases List.eq_nil_or_concat' newer with rfl | ⟨newer, last, rfl⟩
    · obtain ⟨rfl, hee⟩ := List.append_inj' he rfl
      exact Or.inl (List.singleton_inj.mp hee ▸ hgo)
    · rw [← List.cons_append, ← List.append_assoc] at he
      obtain ⟨rfl, hll⟩ := List.append_inj' he rfl
      obtain rfl := List.singleton_inj.mp hll
      exact Or.inr ⟨⟨older, e, newer, rfl, hgo,
        fun later hl => hlater later (List.mem_append_left _ hl)⟩,
        hlater event (List.mem_append_right _ (List.mem_singleton_self _))⟩
  · rintro (hgo | ⟨⟨older, e, newer, rfl, hgo, hlater⟩, hp⟩)
    · exact ⟨past, event, [], rfl, hgo, fun later hl => absurd hl List.not_mem_nil⟩
    · refine ⟨older, e, newer ++ [event], by simp, hgo, fun later hl => ?_⟩
      rcases List.mem_append.mp hl with hl | hl
      · exact hlater later hl
      · exact List.mem_singleton.mp hl ▸ hp

/-- An input has been pressed, and not let go since. -/
def Stays (past : Events) (naming : KeyNaming) (input : Input) : Prop :=
  (∃ event ∈ past, event.Presses naming input) ∧ ¬ past.LetGo naming input

theorem stays_iff_of_mem_pressedAs (h : input ∈ past.pressedAs naming source) :
    past.Stays naming input ↔ ¬ past.LetGo naming input := by
  obtain ⟨event, he, -, hp⟩ := exists_press_of_mem_pressedAs h
  exact and_iff_right ⟨event, he, hp⟩

theorem not_stays_nil (naming : KeyNaming) (input : Input) : ¬ Stays [] naming input :=
  fun ⟨⟨_, he, _⟩, _⟩ => List.not_mem_nil he

/-- **An input stays when the newest transition presses it, or when it stayed before and the newest
    does not let it go.** -/
theorem stays_concat :
    Stays (past ++ [event]) naming input ↔
      event.Presses naming input ∨
        past.Stays naming input ∧ past.letsGo? naming event ≠ some input := by
  rw [Stays, Stays, letGo_concat]
  by_cases hp : event.Presses naming input
  · have hgo : past.letsGo? naming event = none := letsGo?_of_press hp.1
    have hmem : event ∈ past ++ [event] := List.mem_append_right _ (List.mem_singleton_self _)
    refine iff_of_true ⟨⟨event, hmem, hp⟩, ?_⟩ (Or.inl hp)
    rintro (h | h)
    · rw [hgo] at h
      exact absurd h nofun
    · exact h.2 hp
  · have hex : (∃ e ∈ past ++ [event], e.Presses naming input) ↔
        ∃ e ∈ past, e.Presses naming input := by
      simp [or_and_right, exists_or, hp]
    rw [hex, or_iff_right hp, and_iff_left hp, not_or, and_assoc, and_comm (a := ¬ _)]

/-- **What lets an input go while a source is down as it is another source**: after a release of its
    own the source would have had to press the input again. -/
theorem source_ne_of_letsGo? {older newer : Events} (hgo : older.letsGo? naming event = some input)
    (hlater : ∀ later ∈ newer, ¬ later.Presses naming input)
    (hdown : downAs? (older ++ event :: newer) naming source = some input) :
    event.source ≠ source := by
  intro hs
  obtain ⟨last, hl, hp⟩ := downAs?_eq_some_iff.mp hdown
  have hsplit : ofSource (older ++ event :: newer) source =
      older.ofSource source ++ event :: newer.ofSource source := by
    rw [ofSource_append]
    simp [ofSource, hs]
  rw [hsplit, Option.mem_def, List.getLast?_append_of_ne_nil _ (List.cons_ne_nil _ _)] at hl
  rcases List.mem_cons.mp (List.mem_of_getLast? hl) with rfl | hmem
  · rw [letsGo?_of_press hp.1] at hgo
    exact absurd hgo nofun
  · exact hlater last (List.mem_of_mem_filter hmem) hp

/-! ## 4. Alternating transitions -/

/-- Presses and releases of a source, oldest first, beginning with the source up. -/
def strokes (past : Events) (source : Source) : List Bool :=
  false :: (past.ofSource source).map (·.action = .press)

/-- The transitions of each source alternate: press, release, press, and so on. -/
def Alternating (past : Events) : Prop :=
  ∀ source ∈ past.map (·.source), (past.strokes source).IsChain (· ≠ ·)

instance (past : Events) : Decidable past.Alternating :=
  inferInstanceAs (Decidable (∀ source ∈ _, _))

theorem getLast?_strokes (past : Events) (source : Source) :
    (past.strokes source).getLast? = some (past.isDown source) := by
  rw [strokes, List.getLast?_cons, List.getLast?_map, isDown]
  cases (past.ofSource source).getLast? <;> rfl

theorem strokes_concat (past : Events) (event : Event) :
    strokes (past ++ [event]) event.source =
      past.strokes event.source ++ [decide (event.action = .press)] := by
  rw [strokes, ofSource_concat, if_pos rfl, List.map_append]
  rfl

theorem Alternating.of_concat (h : Alternating (past ++ [event])) : past.Alternating := by
  intro source hs
  have hchain := h source (by simpa using Or.inl (List.mem_map.mp hs))
  rw [strokes, ofSource_append, List.map_append, ← List.cons_append] at hchain
  exact hchain.left_of_append

/-- **Each transition changes whether its source is down.** -/
theorem Alternating.isDown_ne (h : Alternating (past ++ [event])) :
    past.isDown event.source ≠ decide (event.action = .press) := by
  have hchain := h event.source (by simp)
  rw [strokes_concat, List.isChain_append] at hchain
  exact hchain.2.2 _ (getLast?_strokes past event.source) _ rfl

/-! ## 5. Who holds what stays -/

/-- **Where transitions alternate, what stays is what a source is down as.** The transitions looked
    at are the newest of all that alternate. -/
theorem exists_downAs?_of_stays {older : Events} (halt : Alternating (older ++ past))
    (h : past.Stays naming input) :
    ∃ source, past.downAs? naming source = some input := by
  induction past using List.reverseRecOn with
  | nil => exact absurd h (not_stays_nil naming input)
  | append_singleton past event ih =>
    rw [← List.append_assoc] at halt
    rcases stays_concat.mp h with ⟨hp, hi⟩ | ⟨hstays, hgo⟩
    · exact ⟨event.source, by rw [downAs?_concat, if_pos rfl, if_pos hp, hi]⟩
    · obtain ⟨source, hdown⟩ := ih halt.of_concat hstays
      refine ⟨source, ?_⟩
      rw [downAs?_concat, if_neg, hdown]
      -- the source is down, so its next transition would be a release, of this very input
      rintro rfl
      have hisDown : isDown (older ++ past) event.source = true :=
        isDown_of_suffix (List.suffix_append older past) (isDown_of_downAs? hdown)
      have hne := halt.isDown_ne
      rw [hisDown] at hne
      have hnot : event.action ≠ .press := fun hp => hne (decide_eq_true hp).symm
      refine hgo ?_
      rw [letsGo?, if_neg hnot, getLast?_pressedAs_of_downAs? hdown, Option.some_or]

end Events

end KeyBindings
