import KeyBindings.Chord
import KeyBindings.Sequence

/-!
# Patterns: chords one after another

* `Pattern` -- the chords of a binding in order; an empty chord is never part of one;
* `Pattern.same` -- equality chord by chord, the order inside a chord ignored (`same_iff`);
* `Mode` -- how a pattern is compared with live input. A text asks for the sequential mode by
  containing an arrow (`Mode.ofBinding`).
-/

namespace KeyBindings

/-- The chords of a binding, in order. -/
structure Pattern where
  chords : List Chord
  members_ne_nil : ∀ c ∈ chords, c.members ≠ []
  deriving DecidableEq

namespace Pattern

@[ext] theorem ext {p q : Pattern} (h : p.chords = q.chords) : p = q := by
  cases p
  cases q
  simp_all

/-! ## 1. Building -/

/-- The pattern without chords. -/
def empty : Pattern := ⟨[], by simp⟩

instance : Inhabited Pattern := ⟨empty⟩

/-- The pattern of a list of chords; empty chords are dropped. -/
def ofChords (chords : List Chord) : Pattern where
  chords := chords.filter fun c => !c.isEmpty
  members_ne_nil := fun c hc => by simpa [Chord.isEmpty] using (List.mem_filter.mp hc).2

/-- The pattern of lists of inputs: each list is a chord. -/
def ofLists (lists : List (List Input)) : Pattern := ofChords (lists.map Chord.ofList)

/-- The last `n` chords of a pattern, or all of them when it has fewer. -/
def last (p : Pattern) (n : Nat) : Pattern where
  chords := Sequence.keepLast n p.chords
  members_ne_nil := fun c hc =>
    p.members_ne_nil c ((Sequence.keepLast_suffix n p.chords).subset hc)

@[simp] theorem chords_empty : empty.chords = [] := rfl

@[simp] theorem mem_chords_ofChords {chords : List Chord} {c : Chord} :
    c ∈ (ofChords chords).chords ↔ c ∈ chords ∧ c.members ≠ [] := by
  simp [ofChords, Chord.isEmpty]

theorem chords_ofChords_of_forall {chords : List Chord} (h : ∀ c ∈ chords, c.members ≠ []) :
    (ofChords chords).chords = chords := by
  simpa [ofChords, Chord.isEmpty] using h

/-! ## 2. Asking -/

def size (p : Pattern) : Nat := p.chords.length

def isEmpty (p : Pattern) : Bool := p.chords.isEmpty

/-- The members of all chords in order; an input of two chords stands twice. -/
def flatten (p : Pattern) : List Input := p.chords.flatMap Chord.members

/-- The members chord by chord. -/
def toLists (p : Pattern) : List (List Input) := p.chords.map Chord.members

@[simp] theorem isEmpty_iff {p : Pattern} : p.isEmpty = true ↔ p.chords = [] := by
  simp [isEmpty]

/-! ## 3. Equality up to order inside chords -/

/-- Whether two lists of chords have the same chords place by place. -/
def sameChords : List Chord → List Chord → Bool
  | [], [] => true
  | c :: cs, d :: ds => c.same d && sameChords cs ds
  | _, _ => false

/-- Whether two patterns have the same chords place by place. -/
def same (p q : Pattern) : Bool := sameChords p.chords q.chords

theorem sameChords_iff {cs ds : List Chord} :
    sameChords cs ds = true ↔
      cs.length = ds.length ∧ ∀ (i : Nat) (c d : Chord), cs[i]? = some c → ds[i]? = some d →
        ∀ x, x ∈ c.members ↔ x ∈ d.members := by
  induction cs generalizing ds with
  | nil => cases ds <;> simp [sameChords]
  | cons c cs ih =>
    cases ds with
    | nil => simp [sameChords]
    | cons d ds =>
      rw [sameChords, Bool.and_eq_true, ih, Chord.same_iff]
      constructor
      · rintro ⟨hcd, hl, hrest⟩
        refine ⟨by simp [hl], fun i => ?_⟩
        cases i with
        | zero => simpa using hcd
        | succ i => simpa using hrest i
      · rintro ⟨hl, h⟩
        exact ⟨by simpa using h 0, by simpa using hl, fun i => by simpa using h (i + 1)⟩

/-- **Two patterns are the same exactly when they have equally many chords and the chords at each
    place have the same members.** -/
theorem same_iff {p q : Pattern} :
    p.same q = true ↔
      p.size = q.size ∧ ∀ (i : Nat) (c d : Chord), p.chords[i]? = some c → q.chords[i]? = some d →
        ∀ x, x ∈ c.members ↔ x ∈ d.members :=
  sameChords_iff

/-! ## 4. Showing -/

/-- The chords in order, joined by arrows. -/
def text (p : Pattern) : String := " > ".intercalate (p.chords.map Chord.text)

end Pattern

/-! ## 5. Modes -/

/-- How a pattern is compared with live input. -/
inductive Mode where
  /-- Its inputs stand in the held list, in order and without gaps. -/
  | simultaneous
  /-- Its chords are completed one after another. -/
  | sequential
  deriving DecidableEq, Repr

namespace Mode

def name : Mode → String
  | .simultaneous => "simultaneous"
  | .sequential => "sequential"

/-- Reads a mode from its exact name. -/
def ofText? (s : String) : Option Mode :=
  if s = "simultaneous" then some .simultaneous
  else if s = "sequential" then some .sequential
  else none

/-- The mode a binding's text asks for: sequential if it has an arrow anywhere. -/
def ofBinding (s : String) : Mode :=
  if s.toList.contains '>' then .sequential else .simultaneous

theorem ofText?_name (m : Mode) : ofText? m.name = some m := by
  cases m <;> decide

end Mode

end KeyBindings
