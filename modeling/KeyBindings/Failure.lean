/-!
# Failures and their causes

A failure says what could not be done; its causes say why, each the reason for the one before.
`chain` writes it on one line, `report` over several: a lone cause is indented, several are
numbered, and a line break inside a cause keeps the cause's indentation.

`bind_eq_ok_iff`, `map_eq_ok_iff` and `mapError_eq_ok_iff` say when what may fail in stages
succeeds; `bind_bind` regroups the stages.
-/

namespace KeyBindings

/-- What could not be done, and why. -/
structure Failure where
  message : String
  causes : List String
  deriving DecidableEq, Repr

namespace Failure

/-- A failure without a cause. -/
def of (message : String) : Failure := ⟨message, []⟩

/-- A failure that is the reason for another one. -/
def under (cause : Failure) (message : String) : Failure :=
  ⟨message, cause.message :: cause.causes⟩

/-- The failure on one line. -/
def chain (f : Failure) : String := ": ".intercalate (f.message :: f.causes)

/-- A text with something put behind each of its line breaks. -/
def indent (margin : List Char) (text : String) : String :=
  String.ofList (text.toList.flatMap fun c => if c = '\n' then c :: margin else [c])

/-- A text filled up with spaces on the left to a width. -/
def alignRight (width : Nat) (text : String) : String :=
  String.ofList (text.toList.leftpad width ' ')

/-- A cause with its number. -/
def numbered (cause : String × Nat) : String :=
  alignRight 5 (toString cause.2) ++ ": " ++ indent (List.replicate 7 ' ') cause.1

/-- The lines on the causes. -/
def causeLines : List String → List String
  | [] => []
  | [cause] => ["", "Caused by:", "    " ++ indent (List.replicate 4 ' ') cause]
  | causes => ["", "Caused by:"] ++ causes.zipIdx.map numbered

/-- The failure over several lines. -/
def report (f : Failure) : String :=
  String.join ((("Error: " ++ f.message) :: causeLines f.causes).map (· ++ "\n"))

end Failure

/-! ## What succeeds in stages -/

section Results

variable {ε ε' α β : Type} {result : Except ε α}

/-- Three stages are one behind two, and two behind one. -/
theorem bind_bind {γ : Type} {next : α → Except ε β} {last : β → Except ε γ} :
    (result.bind next).bind last = result.bind fun a => (next a).bind last := by
  cases result <;> rfl

/-- What succeeds in two stages succeeds in each. -/
theorem bind_eq_ok_iff {next : α → Except ε β} {b : β} :
    result.bind next = .ok b ↔ ∃ a, result = .ok a ∧ next a = .ok b := by
  cases result with
  | error e => exact iff_of_false nofun fun ⟨_, h, _⟩ => nomatch h
  | ok a =>
    constructor
    · exact fun h => ⟨a, rfl, h⟩
    · intro h
      obtain ⟨_, ha, hb⟩ := h
      cases ha
      exact hb

theorem map_eq_ok_iff {f : α → β} {b : β} :
    result.map f = .ok b ↔ ∃ a, result = .ok a ∧ f a = b := by
  cases result with
  | error e => exact iff_of_false nofun fun ⟨_, h, _⟩ => nomatch h
  | ok a => simp [Except.map]

/-- What a failure is reported as does not touch what succeeds. -/
theorem mapError_eq_ok_iff {f : ε → ε'} {a : α} : result.mapError f = .ok a ↔ result = .ok a := by
  cases result with
  | error e => exact iff_of_false nofun nofun
  | ok a' =>
    -- the same value, among other failures
    constructor
    · exact fun h => congrArg Except.ok (Except.ok.inj h)
    · exact fun h => congrArg Except.ok (Except.ok.inj h)

end Results

end KeyBindings
