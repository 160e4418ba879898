import KeyBindings.Matching

/-!
# The registry: bindings in the order they were registered

Each binding has an id that is never handed out again, the text it was written as, its pattern and
mode, and a callback -- any value at all: what to run is the host's business, WHICH bindings are
complete is the registry's.

* **`find?_insert`**, **`ids_remove`** -- what the two changes do to the ids;
* `complete` -- the bindings that are complete in a tracker at an instant, in order;
* `dispatch` -- what is run: first the PLACES of the complete bindings are collected, then the
  binding at each place is run: its callback is called, and its id is noted. `Fired` keeps the two
  traces apart.
-/

namespace KeyBindings

/-- The number of a binding, counted from zero in the order of registration. -/
abbrev BindingId := Nat

/-- The name under which a binding is reported. -/
def BindingId.name (id : BindingId) : String := "#" ++ toString id

/-- A registered binding. -/
structure Binding (α : Type) where
  id : BindingId
  /-- The text the binding was written as. -/
  source : String
  pattern : Pattern
  mode : Mode
  callback : α

/-- Whether a binding is complete in a tracker at an instant. -/
def Binding.fires {α : Type} (b : Binding α) (t : Tracker) (now : Instant) : Bool :=
  b.pattern.fires b.mode t now

/-- What a transition fires: the callbacks that were called, and the ids that were noted. -/
structure Fired (α : Type) where
  called : List α
  ids : List BindingId
  deriving DecidableEq, Repr

namespace Fired

variable {α : Type}

def nothing : Fired α := ⟨[], []⟩

/-- Calls a callback. -/
def call (fired : Fired α) (callback : α) : Fired α :=
  { fired with called := fired.called ++ [callback] }

/-- Notes the id of a binding. -/
def note (fired : Fired α) (id : BindingId) : Fired α := { fired with ids := fired.ids ++ [id] }

end Fired

/-- Bindings in the order of registration, and the id that comes next. -/
structure Registry (α : Type) where
  bindings : List (Binding α)
  nextId : BindingId

namespace Registry

variable {α : Type}

def empty : Registry α := ⟨[], 0⟩

def size (r : Registry α) : Nat := r.bindings.length

def isEmpty (r : Registry α) : Bool := r.bindings.isEmpty

def ids (r : Registry α) : List BindingId := r.bindings.map (·.id)

def find? (r : Registry α) (id : BindingId) : Option (Binding α) :=
  r.bindings.find? (·.id = id)

/-- Registers a binding under a new id. -/
def insert (r : Registry α) (source : String) (pattern : Pattern) (mode : Mode) (callback : α) :
    Registry α × BindingId :=
  (⟨r.bindings ++ [⟨r.nextId, source, pattern, mode, callback⟩], r.nextId + 1⟩, r.nextId)

/-- The registry without a binding. -/
def without (r : Registry α) (id : BindingId) : Registry α :=
  { r with bindings := r.bindings.filter (·.id ≠ id) }

/-- Takes a binding out, and says whether there was one. -/
def remove (r : Registry α) (id : BindingId) : Registry α × Bool :=
  (r.without id, (r.without id).size != r.size)

/-- The bindings that are complete, in the order of registration. -/
def complete (r : Registry α) (t : Tracker) (now : Instant) : List (Binding α) :=
  r.bindings.filter fun b => b.fires t now

/-- The ids of the bindings that are complete. -/
def matching (r : Registry α) (t : Tracker) (now : Instant) : List BindingId :=
  (r.complete t now).map (·.id)

/-- The places of the bindings that are complete. -/
def completePlaces (r : Registry α) (t : Tracker) (now : Instant) : List Nat :=
  (r.bindings.zipIdx.filter fun placed => placed.1.fires t now).map (·.2)

/-- Runs the binding at a place: calls its callback, and then notes its id. -/
def fireAt (r : Registry α) (fired : Fired α) (place : Nat) : Fired α :=
  match r.bindings[place]? with
  | none => fired
  | some b => (fired.call b.callback).note b.id

/-- Runs the bindings that are complete. Their places are all collected before the first of them
    runs, so what runs is fixed by the tracker at the transition. -/
def dispatch (r : Registry α) (t : Tracker) (now : Instant) : Fired α :=
  (r.completePlaces t now).foldl r.fireAt .nothing

/-! ## What the changes do to the ids -/

@[simp] theorem ids_insert (r : Registry α) (source : String) (pattern : Pattern) (mode : Mode)
    (callback : α) : (r.insert source pattern mode callback).1.ids = r.ids ++ [r.nextId] := by
  simp [insert, ids]

theorem ids_without (r : Registry α) (id : BindingId) :
    (r.without id).ids = r.ids.filter (· ≠ id) := by
  rw [ids, without, ids, List.filter_map]
  rfl

/-- **A removal takes out the one id and nothing else.** -/
theorem ids_remove (r : Registry α) (id : BindingId) :
    (r.remove id).1.ids = r.ids.filter (· ≠ id) := ids_without r id

/-- **What is registered is found under its id, and nothing else changes.** -/
theorem find?_insert {r : Registry α} {source : String} {pattern : Pattern} {mode : Mode}
    {callback : α} {id : BindingId} (hr : r.nextId ∉ r.ids) :
    (r.insert source pattern mode callback).1.find? id =
      if id = r.nextId then some ⟨r.nextId, source, pattern, mode, callback⟩ else r.find? id := by
  have key : (r.insert source pattern mode callback).1.find? id =
      (r.find? id).or (if r.nextId = id then some ⟨r.nextId, source, pattern, mode, callback⟩
        else none) := by
    simp [insert, find?, List.find?_append, List.find?_singleton]
  rw [key]
  by_cases h : id = r.nextId
  · subst h
    have hn : r.find? r.nextId = none := by
      rw [find?, List.find?_eq_none]
      intro b hb
      have : b.id ≠ r.nextId := fun e => hr (e ▸ List.mem_map_of_mem hb)
      simpa using this
    simp [hn]
  · have h' : r.nextId ≠ id := fun e => h e.symm
    simp [h, h']

end Registry

end KeyBindings
