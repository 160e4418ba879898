import KeyBindings.Input.Action
import KeyBindings.Pattern.Basic
import KeyBindings.Pattern.Token
import KeyBindings.Pattern.Escaped

/-!
# Patterns read from text

* `Pattern.ofText` -- the full form. An arrow closes the chord that is open, a plus sign says
  nothing, a name joins the open chord; stray, leading, trailing and repeated delimiters leave no
  trace, since empty chords are dropped;
* `Pattern.ofEscaped` -- the flat form, one chord;
* `Pattern.ofBinding` -- what a registration reads: the form and the mode go by the naming, and a
  text that names no input is refused.
-/

namespace KeyBindings

/-- Why a text is no binding. -/
inductive BindingError where
  /-- It names no input. -/
  | noInputs
  deriving DecidableEq, Repr

def BindingError.message : BindingError → String
  | .noInputs => "binding string contains no inputs"

namespace Pattern

/-- The chords that tokens spell, where `chord` is the chord that is open. Empty ones are still
    among them. -/
def chordsFrom (chord : Chord) : List Token → List Chord
  | [] => [chord]
  | .arrow :: tokens => chord :: chordsFrom .empty tokens
  | .plus :: tokens => chordsFrom chord tokens
  | .name input :: tokens => chordsFrom (chord.insert input) tokens

def ofTokens (tokens : List Token) : Pattern := ofChords (chordsFrom .empty tokens)

/-- Reads a text in the full form. -/
def ofText (binding : String) : Pattern := ofTokens (Token.scan binding)

/-- Reads a text in the full form that has to name an input. -/
def ofText? (binding : String) : Except BindingError Pattern :=
  if (ofText binding).isEmpty then .error .noInputs else .ok (ofText binding)

/-- Reads a text in the flat form. -/
def ofEscaped (binding : String) : Pattern := ofChords [Chord.ofList (Escaped.names binding)]

/-- What a text stands for as a binding. Physical names are written in the full form and choose
    the mode by their arrows; logical names are written in the flat form and are simultaneous. -/
def ofBinding (naming : KeyNaming) (binding : String) : Except BindingError (Pattern × Mode) :=
  match naming with
  | .physical => (ofText? binding).map fun pattern => (pattern, Mode.ofBinding binding)
  | .logical =>
    if (ofEscaped binding).isEmpty then .error .noInputs
    else .ok (ofEscaped binding, .simultaneous)

theorem ofText?_eq_error_iff {binding : String} :
    ofText? binding = .error .noInputs ↔ (ofText binding).chords = [] := by
  rw [ofText?]
  split <;> simp_all

theorem ofText?_eq_ok_iff {binding : String} {p : Pattern} :
    ofText? binding = .ok p ↔ p = ofText binding ∧ p.chords ≠ [] := by
  rw [ofText?]
  split
  · next h =>
    rw [isEmpty_iff] at h
    exact ⟨fun e => by simp at e, fun ⟨e, hne⟩ => absurd (e ▸ h) hne⟩
  · next h =>
    rw [isEmpty_iff] at h
    exact ⟨fun e => by
        obtain rfl := Except.ok.inj e
        exact ⟨rfl, h⟩,
      fun ⟨e, _⟩ => e ▸ rfl⟩

/-- A flat binding has one chord at most. -/
theorem length_chords_ofEscaped_le (binding : String) : (ofEscaped binding).chords.length ≤ 1 :=
  List.length_filter_le _ _

end Pattern

end KeyBindings
