import KeyBindings.Proofs.WrittenScripts

/-!
# Scripts one behind the other

A script is read line by line, so two of them with a line feed in between read as the first and then
the second. The first bad line of all is the one reported, under the number it has in the whole.

* `readLines_eq_error_iff` -- a failure points at a bad line in front of which all lines are good;
* `readLines_add` -- lines further down read the same, under numbers that are higher by as much;
* `ofText_append` -- the two scripts in one equation;
* `Error.failure_eq_iff` -- the number of the line can be read off the message;
* **`scripts_compose`**: what that means for the steps and for the messages.

A line feed is what parts the two. Where the first text ends in one already, an empty line stands
between them; it says nothing, but it COUNTS.
-/

namespace KeyBindings

namespace Script

/-! ## 1. The first bad line -/

variable {number : Nat} {lines : List (List Char)} {e : Error}

/-- Lines give steps exactly if each of them is good. -/
theorem exists_readLines_iff :
    (∃ steps, readLines number lines = .ok steps) ↔
      ∀ line ∈ lines, ∃ step?, readLine line = .ok step? := by
  induction lines generalizing number with
  | nil => exact iff_of_true ⟨[], rfl⟩ (List.forall_mem_nil _)
  | cons line lines ih =>
    rw [List.forall_mem_cons, readLines]
    cases hline : readLine line with
    | error reason =>
      refine iff_of_false (fun h => ?_) (fun h => ?_)
      · obtain ⟨steps, hsteps⟩ := h
        cases hsteps
      · obtain ⟨step?, hstep⟩ := h.1
        cases hstep
    | ok step? =>
      rw [and_iff_right ⟨step?, rfl⟩, ← @ih (number + 1)]
      show (∃ steps, (readLines (number + 1) lines).map _ = .ok steps) ↔ _
      cases readLines (number + 1) lines with
      | ok steps => exact iff_of_true ⟨_, rfl⟩ ⟨_, rfl⟩
      | error e =>
        refine iff_of_false (fun h => ?_) (fun h => ?_)
        · obtain ⟨steps, hsteps⟩ := h
          cases hsteps
        · obtain ⟨steps, hsteps⟩ := h
          cases hsteps

/-- In front of the line that a failure points at, all lines are good. -/
theorem exists_bad_line (h : readLines number lines = .error e) :
    ∃ before line after, lines = before ++ line :: after ∧ e.number = number + before.length ∧
      readLine line = .error e.reason ∧ ∀ good ∈ before, ∃ step?, readLine good = .ok step? := by
  induction lines generalizing number with
  | nil => cases h
  | cons line lines ih =>
    rw [readLines] at h
    split at h
    · next reason hline =>
      obtain rfl := Except.error.inj h
      exact ⟨[], line, lines, rfl, rfl, hline, List.forall_mem_nil _⟩
    · next step? hline =>
      cases hrest : readLines (number + 1) lines with
      | ok steps =>
        rw [hrest] at h
        cases h
      | error e' =>
        rw [hrest] at h
        obtain rfl := Except.error.inj h
        obtain ⟨before, bad, after, rfl, hn, hbad, hgood⟩ := ih hrest
        refine ⟨line :: before, bad, after, rfl, ?_, hbad,
          List.forall_mem_cons.mpr ⟨⟨step?, hline⟩, hgood⟩⟩
        rw [hn, List.length_cons]
        omega

/-- **A failure points at the first bad line**: the line is bad for the reason given, and all lines
    in front of it are good. -/
theorem readLines_eq_error_iff :
    readLines number lines = .error e ↔
      ∃ before line after, lines = before ++ line :: after ∧ e.number = number + before.length ∧
        readLine line = .error e.reason ∧ ∀ good ∈ before, ∃ step?, readLine good = .ok step? := by
  refine ⟨exists_bad_line, fun h => ?_⟩
  obtain ⟨before, line, after, rfl, hn, hbad, hgood⟩ := h
  obtain ⟨steps, hsteps⟩ := exists_readLines_iff.mpr hgood
  rw [readLines_append, hsteps]
  show (readLines (number + before.length) (line :: after)).map _ = _
  rw [readLines, hbad, ← hn]
  rfl

/-! ## 2. Lines further down -/

/-- The same fault some lines further down. -/
def Error.later (e : Error) (n : Nat) : Error := { e with number := e.number + n }

/-- **Lines further down read the same**, and the line that is bad has a higher number. -/
theorem readLines_add (number n : Nat) (lines : List (List Char)) :
    readLines (number + n) lines = (readLines number lines).mapError (·.later n) := by
  induction lines generalizing number with
  | nil => rfl
  | cons line lines ih =>
    rw [readLines, readLines]
    cases readLine line with
    | error reason => rfl
    | ok step? =>
      show (readLines (number + n + 1) lines).map _ =
        ((readLines (number + 1) lines).map _).mapError _
      rw [Nat.add_right_comm, ih]
      cases readLines (number + 1) lines <;> rfl

/-- How often a text goes to a new line. -/
def lineFeeds (text : String) : Nat := text.toList.count '\n'

/-- A text has one line more than it has line feeds. -/
theorem length_lines_toList (text : String) :
    (Text.lines text.toList).length = lineFeeds text + 1 :=
  Text.length_cut _ _

/-- **Two scripts with a line feed in between** read as the first and then the second. -/
theorem ofText_append (a b : String) :
    ofText (a ++ "\n" ++ b) =
      (ofText a).bind fun xs =>
        ((ofText b).mapError (·.later (lineFeeds a + 1))).map (xs ++ ·) := by
  have hseam : (a ++ "\n" ++ b).toList = a.toList ++ '\n' :: b.toList := by
    simp [String.toList_append]
  rw [ofText, hseam, lines_append, readLines_append, length_lines_toList, readLines_add, ofText,
    ofText]
  cases readLines 1 (Text.lines a.toList) <;> rfl

/-! ## 3. Messages -/

/-- What a host hears of a script: its steps, or the failure on its first bad line. -/
def reading (text : String) : Except Failure (List Step) := (ofText text).mapError Error.failure

/-- What is said of a line. -/
def lineMessage (number : Nat) (message : String) : String :=
  "line " ++ toString number ++ ": " ++ message

/-- A number is written in its decimal digits. -/
theorem toList_toString (n : Nat) : (toString n).toList = Nat.toDigits 10 n :=
  String.toList_ofList

theorem toList_lineMessage (number : Nat) (message : String) :
    (lineMessage number message).toList =
      "line ".toList ++ (Nat.toDigits 10 number ++ ':' :: ' ' :: message.toList) := by
  rw [lineMessage, String.toList_append, String.toList_append, String.toList_append,
    toList_toString, List.append_assoc, List.append_assoc]
  rfl

/-- **The number of a line can be read off what is said of it**: no digit is a colon. -/
theorem lineMessage_inj {j k : Nat} {m n : String} :
    lineMessage j m = lineMessage k n ↔ j = k ∧ m = n := by
  constructor
  · intro h
    have hdigits : ∀ (l : Nat) (rest : List Char),
        (Nat.toDigits 10 l ++ ':' :: rest).takeWhile Char.isDigit = Nat.toDigits 10 l := by
      intro l rest
      rw [List.takeWhile_append_of_pos fun c hc =>
        Nat.isDigit_of_mem_toDigits (by decide) (by decide) hc]
      exact List.append_nil _
    rw [← String.toList_inj, toList_lineMessage, toList_lineMessage,
      List.append_cancel_left_eq] at h
    have hsame : Nat.toDigits 10 j = Nat.toDigits 10 k := by
      rw [← hdigits j (' ' :: m.toList), h, hdigits]
    have hjk : j = k := by
      rw [← Nat.ofDigitChars_ten_toDigits (n := j), hsame, Nat.ofDigitChars_ten_toDigits]
    rw [hsame, List.append_cancel_left_eq, List.cons.injEq, List.cons.injEq, String.toList_inj] at h
    exact ⟨hjk, h.2.2⟩
  · intro h
    rw [h.1, h.2]

/-- What is heard of a failure is said of its line. -/
theorem reading_eq_error_iff {text : String} {f : Failure} :
    reading text = .error f ↔
      ∃ e, ofText text = .error e ∧
        f = ⟨lineMessage e.number e.reason.message, e.reason.causes⟩ := by
  rw [reading]
  cases ofText text with
  | ok steps => exact iff_of_false nofun fun h => nomatch h.choose_spec.1
  | error e =>
    constructor
    · intro h
      exact ⟨e, rfl, (Except.error.inj h).symm⟩
    · intro h
      obtain ⟨e', he, rfl⟩ := h
      cases he
      rfl

theorem reading_eq_ok_iff {text : String} {steps : List Step} :
    reading text = .ok steps ↔ ofText text = .ok steps :=
  mapError_eq_ok_iff

/-! ## 4. Two scripts -/

/-- **Scripts compose, and a failure points at the first bad line.** Of two texts with a line feed
    in between, the whole fails as the first one does, message and causes alike; where both give
    steps, it gives those of the first and then those of the second; and where the second alone
    fails, it fails with the same words and causes on a line that is further down by the lines of
    the first. A reading fails exactly where some line is bad, and then it says of the first such
    line, counted from one, what is wrong with it. -/
theorem scripts_compose (a b : String) :
    (∀ f, reading a = .error f → reading (a ++ "\n" ++ b) = .error f) ∧
      (∀ xs ys, reading a = .ok xs → reading b = .ok ys →
        reading (a ++ "\n" ++ b) = .ok (xs ++ ys)) ∧
      (∀ xs (k : Nat) (message : String) (causes : List String), reading a = .ok xs →
        reading b = .error ⟨lineMessage k message, causes⟩ →
        reading (a ++ "\n" ++ b) = .error ⟨lineMessage (k + 1 + lineFeeds a) message, causes⟩) ∧
      ∀ (text : String) (f : Failure), reading text = .error f ↔
        ∃ before line after reason, Text.lines text.toList = before ++ line :: after ∧
          (∀ good ∈ before, ∃ step?, readLine good = .ok step?) ∧ readLine line = .error reason ∧
          f = ⟨lineMessage (before.length + 1) reason.message, reason.causes⟩ := by
  refine ⟨?_, ?_, ?_, ?_⟩
  · intro f h
    obtain ⟨e, he, hf⟩ := reading_eq_error_iff.mp h
    refine reading_eq_error_iff.mpr ⟨e, ?_, hf⟩
    rw [ofText_append, he]
    rfl
  · intro xs ys ha hb
    rw [reading_eq_ok_iff] at ha hb ⊢
    rw [ofText_append, ha, hb]
    rfl
  · intro xs k message causes ha hb
    rw [reading_eq_ok_iff] at ha
    obtain ⟨e, he, hf⟩ := reading_eq_error_iff.mp hb
    rw [Failure.mk.injEq, lineMessage_inj] at hf
    obtain ⟨⟨rfl, rfl⟩, rfl⟩ := hf
    refine reading_eq_error_iff.mpr ⟨e.later (lineFeeds a + 1), ?_, ?_⟩
    · rw [ofText_append, ha, he]
      rfl
    · have hnumber : e.number + 1 + lineFeeds a = e.number + (lineFeeds a + 1) := by omega
      rw [hnumber]
      rfl
  · intro text f
    rw [reading_eq_error_iff]
    constructor
    · intro h
      obtain ⟨e, he, rfl⟩ := h
      obtain ⟨before, line, after, hl, hn, hbad, hgood⟩ := readLines_eq_error_iff.mp he
      refine ⟨before, line, after, e.reason, hl, hgood, hbad, ?_⟩
      rw [hn, Nat.add_comm 1]
    · intro h
      obtain ⟨before, line, after, reason, hl, hgood, hbad, rfl⟩ := h
      refine ⟨⟨before.length + 1, reason⟩, ?_, rfl⟩
      exact readLines_eq_error_iff.mpr ⟨before, line, after, hl, Nat.add_comm _ _, hbad, hgood⟩

/-- The first text ends in a line end of two characters and is followed by an empty line; the second
    begins with one. -/
theorem bad_wait_moves_down :
    let a := "press KeyA # down\r\n"
    let b := "\nwait soon"
    let wrong : Nat → Failure := fun number =>
      ⟨lineMessage number "bad wait 'soon'", ["invalid digit found in string"]⟩
    reading a = .ok [.input .press "KeyA"] ∧ reading b = .error (wrong 2) ∧
      reading (a ++ "\n" ++ b) = .error (wrong 4) ∧ reading (b ++ "\n" ++ a) = .error (wrong 2) ∧
      reading (a ++ "\n" ++ a) = .ok [.input .press "KeyA", .input .press "KeyA"] := by
  intro a b wrong
  have ha : reading a = .ok [.input .press "KeyA"] := by decide
  have hb : reading b = .error (wrong 2) := by decide
  have hfeeds : lineFeeds a = 1 := by decide
  have hab := (scripts_compose a b).2.2.1 _ 2 _ _ ha hb
  rw [hfeeds] at hab
  have haa := (scripts_compose a a).2.1 _ _ ha ha
  exact ⟨ha, hb, hab, (scripts_compose b a).1 _ hb, haa⟩

end Script

end KeyBindings
